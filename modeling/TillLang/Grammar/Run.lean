/-
  TillLang.Grammar.Run — parsing by the table.

  The stack holds the derivations read so far, each with the state after it. At a terminal
  the state on top decides: the terminal is shifted, or a rule is reduced to one
  derivation, or there is nothing to do and the text is refused at that terminal, with the
  terminals at which the state had something to do. The text is accepted when its end is
  to be shifted.
-/

import TillLang.Grammar.Table
import TillLang.Grammar.Tree

namespace TillLang.Grammar

open Parse (Fault)

/-- A derivation and the state after it. -/
structure Frame where
  state : Nat
  tree : Tree

/-- The stack, top first, and the terminals to come; past them the text ends. -/
structure Configuration where
  stack : List Frame
  rest : List (Terminal × Token)

namespace Configuration

def state (c : Configuration) : Nat := (c.stack.head?.map Frame.state).getD 0

def ahead (c : Configuration) : Terminal := (c.rest.head?.map (·.1)).getD .finish

end Configuration

inductive Step where
  | next (c : Configuration)
  | accepted (t : Tree)
  | refused (state : Nat) (found : Option (Terminal × Token))
  /-- The stack does not hold what a rule needs. -/
  | stuck

/-- Replaces the derivations on top of a stack by one of the given rule. -/
def reduce (entry : Nat → Entry) (rule : Rule) (c : Configuration) : Step :=
  let count := rule.rhs.length
  let below := c.stack.drop count
  let base : Configuration := ⟨below, c.rest⟩
  if c.stack.length < count then .stuck
  else match (entry base.state).move? rule.lhs with
    | none => .stuck
    | some state =>
      let children := ((c.stack.take count).map Frame.tree).reverse
      .next ⟨⟨state, .node rule children⟩ :: below, c.rest⟩

def step (entry : Nat → Entry) (c : Configuration) : Step :=
  match (entry c.state).action? c.ahead with
  | none => .refused c.state c.rest.head?
  | some (.reduce rule) => reduce entry rule c
  | some (.shift state) =>
    match c.rest, c.stack with
    | (terminal, token) :: rest, stack =>
      .next ⟨⟨state, .leaf terminal token⟩ :: stack, rest⟩
    | [], top :: _ => .accepted top.tree
    | [], [] => .stuck

inductive Outcome where
  | accepted (t : Tree)
  | refused (state : Nat) (found : Option (Terminal × Token))
  | stuck

/-- At most `steps` steps of a parse. -/
def run (entry : Nat → Entry) : Nat → Configuration → Outcome
  | 0, _ => .stuck
  | steps + 1, c =>
    match step entry c with
    | .next c => run entry steps c
    | .accepted t => .accepted t
    | .refused state found => .refused state found
    | .stuck => .stuck

/-- A bound for the steps of a parse: between two shifts each nonterminal is reduced to at
most once for every derivation that a reduction removes from the stack. -/
def stepBound (count : Nat) : Nat := 64 * (count + 1)

/-- The terminals of a token list, up to the end-of-text token. -/
def terminals : List Token → Except Fault (List (Terminal × Token))
  | [] => .ok []
  | t :: rest =>
    match Terminal.ofToken? t with
    | some .finish => .ok []
    | some terminal => ((terminal, t) :: ·) <$> terminals rest
    | none => .error .misshapen

/-! ## Messages -/

/-- What was expected in a state: the descriptions of its terminals in alphabetical order,
each once. -/
def describeExpected (state : Nat) : String :=
  let words := (entry state).expected.map Terminal.description
  let sorted := (words.eraseDups).mergeSort fun a b => decide (a ≤ b)
  if sorted.isEmpty then "nothing" else " or ".intercalate sorted

def describeFound (terminal : Terminal) (token : Token) : String :=
  if terminal.isStructural then terminal.description else Text.inspect token.lexeme

/-- Where an error at the end of the text is placed: the end has no place of its own, since
the terminals before it are line ends and closed blocks, which have no text. -/
def finishLocation : Location := ⟨1, 1⟩

def refusal (state : Nat) (found : Option (Terminal × Token)) : Parse.Error :=
  match found with
  | some (terminal, token) =>
    ⟨describeExpected state, describeFound terminal token, some token.location⟩
  | none => ⟨describeExpected state, Terminal.finish.description, some finishLocation⟩

/-! ## Programs -/

def derive (tokens : List Token) : Except Fault Tree := do
  let all ← terminals tokens
  match run entry (stepBound all.length) ⟨[], all⟩ with
  | .accepted t => return t
  | .refused state found => throw (.rejected (refusal state found))
  | .stuck => throw .misshapen

/-- The program a token list stands for, with constructs nested at most `depth` deep. -/
def programTo (depth : Nat) (tokens : List Token) : Except Fault Node := do
  let t ← derive tokens
  if depth < t.depth then throw (.rejected (.tooDeep none))
  t.program

end TillLang.Grammar
