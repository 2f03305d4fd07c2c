/-
  TillLang.Grammar.Table — what to do in a state at a terminal.

  In a state a terminal is shifted if the state has a move over it, and a rule that was
  read is reduced if the terminal is in its lookahead. There is no other way on: a terminal
  with neither is an error in that state.
-/

import TillLang.Grammar.Lookahead

namespace TillLang.Grammar

/-- The part of a state that parsing looks at: its moves, and the rules read in it with
their lookaheads. -/
structure Entry where
  moves : List (Symbol × Nat)
  reductions : List (Rule × TerminalSet)
  deriving Repr

inductive Action where
  | shift (state : Nat)
  | reduce (rule : Rule)
  deriving DecidableEq, Repr

namespace Entry

def ofState (s : State) (a : Aheads) : Entry :=
  ⟨s.moves, (stateItems s.kernel).filterMap fun i =>
    if i.next?.isNone then some (i.rule, a.of s i) else none⟩

def move? (e : Entry) (s : Symbol) : Option Nat := e.moves.lookup s

/-- What to do at a terminal. -/
def action? (e : Entry) (t : Terminal) : Option Action :=
  match e.move? t with
  | some state => some (.shift state)
  | none => (e.reductions.find? (·.2.has t)).map fun r => .reduce r.1

/-- The terminals at which there is something to do. -/
def expected (e : Entry) : List Terminal := Terminal.all.filter fun t => (e.action? t).isSome

end Entry

/-- The entries of all states. -/
def table : Array Entry :=
  ((states.zip lookaheads).map fun (s, a) => Entry.ofState s a).toArray

def entry (state : Nat) : Entry := table.getD state ⟨[], []⟩

end TillLang.Grammar
