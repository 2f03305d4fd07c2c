/-
  TillLang.Proofs.Grammar.Certificate — what the table has to satisfy, and that it does.

  Parsing by the table is right for two reasons that can be read off the states one item at
  a time. Looking back: a move into a state is over the symbol its items have just read, and
  comes from a state with the same items one symbol earlier. Looking on: where a symbol is
  due there is a move over it that keeps the item and its lookahead, the rules of a
  nonterminal that is due start in the same state with what can follow them there, and a
  rule that was read is reduced at every terminal of its lookahead.

  `certified` says all of this of the computed states and lookaheads, and `certificate` is
  its one evaluation. What is proved of the table later is drawn from it, never from the
  table again.
-/

import TillLang.Grammar.Table

namespace TillLang.Grammar

/-! ## Sets of terminals -/

def TerminalSet.subset (a b : TerminalSet) : Bool := a.union b == b

/-! ## The conditions -/

/-- The states with their lookaheads. -/
def annotated : List (State × Aheads) := states.zip lookaheads

/-- A symbol that is due can be read, and the item goes on with its lookahead. -/
def leadsOn (all : List (State × Aheads)) (s : State) (a : Aheads) (i : Item) (x : Symbol) : Bool :=
  match (Entry.ofState s a).move? x with
  | none => false
  | some m =>
    match all[m]? with
    | none => false
    | some (s', a') =>
      (stateItems s'.kernel).contains i.advance && (a.of s i).subset (a'.of s' i.advance)

/-- The rules of a nonterminal that is due start in the same state, with what can follow
the nonterminal there in their lookahead. -/
def opens (s : State) (a : Aheads) (i : Item) (n : Nonterminal) : Bool :=
  (Rule.ofNonterminal n).all fun r => (stateItems s.kernel).contains ⟨r, 0⟩ &&
    match spread i (a.of s i) with
    | some (_, after) => after.subset (a.of s ⟨r, 0⟩)
    | none => false

/-- A rule that was read is reduced at every terminal of its lookahead. -/
def reduces (s : State) (a : Aheads) (i : Item) : Bool :=
  Terminal.all.all fun t =>
    !(a.of s i).has t || (Entry.ofState s a).action? t == some (.reduce i.rule)

/-- What holds of an item of a state, by what is due in it. -/
def goesOn (s : State) (a : Aheads) (i : Item) : Bool :=
  match i.next? with
  | none => reduces s a i
  | some (.terminal t) => leadsOn annotated s a i (.terminal t)
  | some (.nonterminal n) => leadsOn annotated s a i (.nonterminal n) && opens s a i n

/-- Every move is over the symbol that the items behind it have just read, and comes from
those items one symbol earlier; none leads to the first state. -/
def isBacked (s : State) : Bool :=
  s.moves.all fun (x, m) => m != 0 &&
    match states[m]? with
    | none => false
    | some s' => !s'.kernel.isEmpty && s'.kernel.all fun i =>
      i.dot != 0 && i.rule.rhs[i.dot - 1]? == some x &&
        (stateItems s.kernel).contains ⟨i.rule, i.dot - 1⟩

/-- A rule of which all symbols can be empty derives a nonterminal that can. -/
def emptyClosed : Bool :=
  Rule.all.all fun r => !allEmpty emptyNonterminals r.rhs || emptyNonterminals.contains r.lhs

/-- What can start a rule can start its nonterminal. -/
def firstsClosed : Bool := Rule.all.all fun r => (firstOf firsts r.rhs).subset (firsts.get r.lhs)

/-- The start of the text is in front of the first state and of no other. -/
def startsOnce : Bool :=
  (states.head?.map State.kernel == some [⟨.root, 0⟩]) &&
    states.tail.all fun s => !(stateItems s.kernel).contains ⟨.root, 0⟩

def holdsOfAll : Bool :=
  annotated.all fun (s, a) => isBacked s && (stateItems s.kernel).all (goesOn s a)

def certified : Bool :=
  emptyClosed && (firstsClosed && (startsOnce && (states.length == lookaheads.length && holdsOfAll)))

set_option maxRecDepth 20000 in
/-- The one evaluation of the states and lookaheads in this library. -/
theorem certificate : certified = true := by decide +kernel

/-! ## The conditions as propositions -/

/-- The conditions hold one by one. -/
theorem conditions_hold : emptyClosed = true ∧ firstsClosed = true ∧ startsOnce = true ∧
    (states.length == lookaheads.length) = true ∧ holdsOfAll = true := by
  simpa only [certified, Bool.and_eq_true] using certificate

theorem emptyClosed_holds : emptyClosed = true := conditions_hold.1

theorem firstsClosed_holds : firstsClosed = true := conditions_hold.2.1

theorem startsOnce_holds : startsOnce = true := conditions_hold.2.2.1

theorem length_lookaheads : states.length = lookaheads.length := beq_iff_eq.mp conditions_hold.2.2.2.1

theorem holdsOfAll_holds : holdsOfAll = true := conditions_hold.2.2.2.2

end TillLang.Grammar
