/-
  TillLang.Parse.Cursor — a place in a token list.

  A cursor never runs off its list: past the last token it stays there, so a list that
  does not end with the end-of-text token behaves as if its last token went on for ever.
-/

import TillLang.Parse.Fault

namespace TillLang

/-- Whether a token answers to a label: the word for its kind, or for keywords and
operators their own text. -/
def Token.answersTo (t : Token) (label : String) : Bool :=
  t.kind.label == label || ((t.kind == .keyword || t.kind == .op) && t.lexeme == label)

namespace Parse

/-- The token at a place, and those after it. -/
structure Cursor where
  head : Token
  tail : List Token

namespace Cursor

def ofList? : List Token → Option Cursor
  | [] => none
  | t :: ts => some ⟨t, ts⟩

def next (c : Cursor) : Cursor :=
  match c.tail with
  | [] => c
  | t :: ts => ⟨t, ts⟩

def sees (c : Cursor) (labels : List String) : Bool := labels.any c.head.answersTo

/-- The token, which has to answer to a label, and the place after it. -/
def expect (c : Cursor) (label description : String) : Except Fault (Token × Cursor) :=
  if c.head.answersTo label then .ok (c.head, c.next)
  else .error (unexpected description c.head)

/-- A bound for repetitions: each of them has to move on. -/
def room (c : Cursor) : Nat := c.tail.length + 1

end Cursor

end Parse

end TillLang
