/-
  TillLang.Parse.Fault — why a token list is no program.

  A syntax error says what was expected, what was found instead, and where. The other
  causes come from token lists that no source text has: a literal whose text cannot be
  read, or no tokens at all.
-/

import TillLang.Decimal.Reading
import TillLang.Syntax.Basic
import TillLang.Text.Quoted
import TillLang.Token.Basic

namespace TillLang.Parse

structure Error where
  expected : String
  found : String
  location : Option Location
  deriving DecidableEq, Repr

def Error.message (e : Error) : String :=
  placed ("ParseError: expected " ++ e.expected ++ ", found " ++ e.found)
    (e.location.map Location.text)

def Error.tooDeep (location : Option Location) : Error :=
  ⟨"less deeply nested expression", "too many nested levels", location⟩

inductive Fault where
  | rejected (error : Error)
  /-- The nesting limit was reached inside a statement. -/
  | tooDeep
  | unreadableNumber (lexeme : String)
  | unreadableText (cause : Text.Quoted.Fault)
  | noTokens
  /-- A token or a derivation that the grammar does not know; no source text leads there. -/
  | misshapen
  deriving DecidableEq, Repr

/-- The position of every program. -/
def programPosition : Option Position := some (Location.mk 1 1).position

/-- What messages call a token. -/
def describe (t : Token) : String :=
  match t.kind with
  | .newline => "end of line"
  | .indent => "indent"
  | .dedent => "dedent"
  | .eof => "end of input"
  | _ => Text.inspect t.lexeme

def unexpected (expected : String) (t : Token) : Fault :=
  .rejected ⟨expected, describe t, some t.location⟩

/-! ## Literals -/

def numberOf (t : Token) : Except Fault Literal :=
  match Decimal.read? t.lexeme with
  | some x => .ok (.num x)
  | none => .error (.unreadableNumber t.lexeme)

def textOf (t : Token) : Except Fault String :=
  match Text.Quoted.decode t.lexeme.toList with
  | .ok cs => .ok (String.ofList cs)
  | .error cause => .error (.unreadableText cause)

/-- The literal a token stands for, by its kind; other tokens stand for none. -/
def literalOf? (t : Token) : Option (Except Fault Literal) :=
  match t.kind with
  | .number => some (numberOf t)
  | .string => some (.str <$> textOf t)
  | .char => some (.char <$> textOf t)
  | .bool => some (.ok (.bool (t.lexeme == "true")))
  | _ => none

end TillLang.Parse
