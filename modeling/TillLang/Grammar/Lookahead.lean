/-
  TillLang.Grammar.Lookahead — which terminals may follow a rule that was read.

  The lookahead of an item in a state is the set of terminals that can come after its
  rule there. It spreads in two ways: along a move, an item keeps its lookahead; and where
  a nonterminal is due, its rules are followed by what can start the symbols after it, and
  by the lookahead of the item itself when those symbols can be empty. The lookaheads are
  the least ones closed under both, found by rounds until nothing changes. Items of
  different histories that meet in one state share their lookaheads.
-/

import TillLang.Grammar.Automaton

namespace TillLang.Grammar

/-- A set of terminals, as the bits at their numbers. -/
abbrev TerminalSet := Nat

def TerminalSet.single (t : Terminal) : TerminalSet := 1 <<< t.code

def TerminalSet.has (s : TerminalSet) (t : Terminal) : Bool := s.testBit t.code

def TerminalSet.union (a b : TerminalSet) : TerminalSet := a ||| b

abbrev SetTable := List TerminalSet

def SetTable.get (sets : SetTable) (n : Nonterminal) : TerminalSet := sets.getD n.ctorIdx 0

def SetTable.empty : SetTable := Nonterminal.all.map fun _ => 0

/-- Repeats a step until it changes nothing, at most `rounds` times. -/
def iterate {α : Type} [BEq α] (step : α → α) : Nat → α → α
  | 0, x => x
  | rounds + 1, x =>
    let y := step x
    if y == x then x else iterate step rounds y

/-! ## First terminals -/

/-- Whether symbols can derive the empty text, given the nonterminals that can. -/
def allEmpty (empty : List Nonterminal) (symbols : List Symbol) : Bool :=
  symbols.all fun s => match s with
    | .terminal _ => false
    | .nonterminal n => empty.contains n

/-- The nonterminals that can derive the empty text. -/
def emptyNonterminals : List Nonterminal :=
  iterate (fun empty => Nonterminal.all.filter fun n =>
    (Rule.ofNonterminal n).any fun r => allEmpty empty r.rhs) 40 []

/-- The terminals a text derived from some symbols can start with. -/
def firstOf (firsts : SetTable) : List Symbol → TerminalSet
  | [] => 0
  | .terminal t :: _ => .single t
  | .nonterminal n :: rest =>
    if emptyNonterminals.contains n then (firsts.get n).union (firstOf firsts rest)
    else firsts.get n

/-- The terminals a text derived from each nonterminal can start with. -/
def firsts : SetTable :=
  iterate (fun sets => Nonterminal.all.map fun n =>
    (Rule.ofNonterminal n).foldl (fun s r => s.union (firstOf sets r.rhs)) 0) 40 .empty

/-! ## Lookaheads -/

/-- What an item with lookahead `ahead` means for its next nonterminal: what can follow
the rules of that nonterminal here. -/
def spread (i : Item) (ahead : TerminalSet) : Option (Nonterminal × TerminalSet) :=
  match i.next? with
  | some (.nonterminal n) =>
    let first := firstOf firsts i.following
    some (n, if allEmpty emptyNonterminals i.following then first.union ahead else first)
  | _ => none

/-- Sets for some of the nonterminals; the others have the empty one. -/
abbrev SetMap := List (Nonterminal × TerminalSet)

def SetMap.get (sets : SetMap) (n : Nonterminal) : TerminalSet := (sets.lookup n).getD 0

/-- The union of what several items mean for a nonterminal. -/
def gathered (meant : SetMap) (n : Nonterminal) : TerminalSet :=
  meant.foldl (fun s (m, set) => if m == n then s.union set else s) 0

def closeRound (fromKernel : SetMap) (due : List Nonterminal) (sets : SetMap) : SetMap :=
  let all := fromKernel ++ due.flatMap fun n =>
    (Rule.ofNonterminal n).filterMap fun r => spread ⟨r, 0⟩ (sets.get n)
  due.map fun n => (n, gathered all n)

/-- What can follow the rules of each nonterminal due in a state, given the lookaheads of
the items of its kernel. -/
def closeAheads (kernel : List Item) (aheads : List TerminalSet) : SetMap :=
  let fromKernel := (kernel.zip aheads).filterMap fun (i, ahead) => spread i ahead
  iterate (closeRound fromKernel (closure kernel)) 40 []

/-- What is known of a state in one round: the lookaheads of its kernel and those of the
rules that start in it. -/
structure Aheads where
  kernel : List TerminalSet
  starting : SetMap
  deriving BEq, Repr

def Aheads.of (a : Aheads) (s : State) (i : Item) : TerminalSet :=
  match s.kernel.idxOf? i with
  | some n => a.kernel.getD n 0
  | none => a.starting.get i.rule.lhs

/-- The states with a move to a given one. -/
def predecessors (states : List State) (target : Nat) : List Nat :=
  states.zipIdx.filterMap fun (s, n) => if s.moves.any (·.2 == target) then some n else none

/-- The lookahead of a kernel item, given those of all states: an item whose mark has moved
has the lookaheads it had before the move. -/
def aheadOf (states : List State) (sources : List Nat) (aheads : List Aheads) (i : Item) :
    TerminalSet :=
  match i.dot with
  | 0 => 0
  | dot + 1 =>
    sources.foldl (fun set n =>
      match states[n]?, aheads[n]? with
      | some s, some a => set.union (a.of s ⟨i.rule, dot⟩)
      | _, _ => set) 0

def Aheads.ofKernel (s : State) (kernel : List TerminalSet) : Aheads :=
  ⟨kernel, closeAheads s.kernel kernel⟩

/-- One round over all states; `sources` are their predecessors. -/
def spreadRound (states : List State) (sources : List (List Nat)) (aheads : List Aheads) :
    List Aheads :=
  (states.zip sources).map fun (s, before) =>
    .ofKernel s (s.kernel.map (aheadOf states before aheads))

/-- The lookaheads of all states. -/
@[irreducible] def lookaheads : List Aheads :=
  let sources := (List.range states.length).map (predecessors states)
  iterate (spreadRound states sources) 60
    (states.map fun s => .ofKernel s (s.kernel.map fun _ => 0))

end TillLang.Grammar
