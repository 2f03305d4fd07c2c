/-
  TillLang.Grammar.Automaton — the states in which a text can be read from left to right.

  An item is a rule with a mark that separates what was read from what is due. A state is
  a set of items, the ones that describe the text read so far; it is given by its kernel,
  the items whose mark has moved, and completed by the rules of every nonterminal that is
  due next. Reading a symbol moves the mark over it. The states are those that can be
  reached from the one in front of the text.
-/

import TillLang.Grammar.Rule

namespace TillLang.Grammar

/-- A rule of which the first `dot` symbols were read. -/
structure Item where
  rule : Rule
  dot : Nat
  deriving DecidableEq, Repr

namespace Item

/-- The symbol that is due. -/
def next? (i : Item) : Option Symbol := i.rule.rhs[i.dot]?

def following (i : Item) : List Symbol := i.rule.rhs.drop (i.dot + 1)

def advance (i : Item) : Item := ⟨i.rule, i.dot + 1⟩

/-- The place of an item among all items, by rule and mark. -/
def code (i : Item) : Nat := 8 * i.rule.code + i.dot

def insert (i : Item) : List Item → List Item
  | [] => [i]
  | j :: rest => if i.code ≤ j.code then i :: j :: rest else j :: insert i rest

end Item

/-- The nonterminals that are due next in some items. -/
def dueNonterminals (items : List Item) : List Nonterminal :=
  items.filterMap fun i => match i.next? with
    | some (.nonterminal n) => some n
    | _ => none

def leftCorners (n : Nonterminal) : List Nonterminal :=
  dueNonterminals ((Rule.ofNonterminal n).map (Item.mk · 0))

/-- The nonterminals due next, directly or at the start of a rule of another; each round
takes one of `waiting`, of which `found` are those already taken. -/
def expand : Nat → List Nonterminal → List Nonterminal → List Nonterminal
  | 0, _, found => found
  | _, [], found => found
  | rounds + 1, n :: waiting, found =>
    if found.contains n then expand rounds waiting found
    else expand rounds (leftCorners n ++ waiting) (found ++ [n])

/-- The nonterminals that may start where the items of a kernel stand. -/
def closure (kernel : List Item) : List Nonterminal := expand 200 (dueNonterminals kernel) []

def stateItems (kernel : List Item) : List Item :=
  kernel ++ (closure kernel).flatMap fun n => (Rule.ofNonterminal n).map (Item.mk · 0)

/-- The kernel after a symbol, its items in order. -/
def kernelAfter (items : List Item) (s : Symbol) : List Item :=
  ((items.filter (·.next? == some s)).map Item.advance).foldr Item.insert []

def dueSymbols (items : List Item) : List Symbol :=
  items.foldl (fun found i => match i.next? with
    | some s => if found.contains s then found else found ++ [s]
    | none => found) []

/-- A state: its kernel, and the state each symbol leads to. -/
structure State where
  kernel : List Item
  moves : List (Symbol × Nat)
  deriving DecidableEq, Repr

/-- Adds a kernel to the known ones, unless it is among them, and gives its number. -/
def intern (known : List (List Item)) (kernel : List Item) : List (List Item) × Nat :=
  match known.idxOf? kernel with
  | some n => (known, n)
  | none => (known ++ [kernel], known.length)

def movesFrom (items : List Item) (known : List (List Item)) :
    List (List Item) × List (Symbol × Nat) :=
  (dueSymbols items).foldl (fun (known, moves) s =>
    let (known, n) := intern known (kernelAfter items s)
    (known, moves ++ [(s, n)])) (known, [])

/-- Works through the known kernels; `done` are the states of the first of them. -/
def explore : Nat → List (List Item) → List State → List State
  | 0, _, done => done
  | rounds + 1, known, done =>
    match known[done.length]? with
    | none => done
    | some kernel =>
      let (known, moves) := movesFrom (stateItems kernel) known
      explore rounds known (done ++ [⟨kernel, moves⟩])

/-- The states of the grammar; the first is the one in front of the text. -/
@[irreducible] def states : List State := explore 200 [[⟨.root, 0⟩]] []

end TillLang.Grammar
