/-
  TillLang.Token.Basic — tokens and lexical faults.

  A token is a kind, the text it was read from and its place. Line ends and changes of
  indentation are tokens of their own with an empty text, so that block structure is part
  of the token stream.
-/

import TillLang.Location

namespace TillLang

namespace Token

inductive Kind where
  | name
  | number
  | string
  | char
  | bool
  | keyword
  | op
  | newline
  | indent
  | dedent
  | eof
  deriving DecidableEq, Repr

/-- The word for a kind of token in token dumps. -/
def Kind.label : Kind → String
  | .name => "NAME"
  | .number => "NUMBER"
  | .string => "STRING"
  | .char => "CHAR"
  | .bool => "BOOL"
  | .keyword => "KEYWORD"
  | .op => "OP"
  | .newline => "NEWLINE"
  | .indent => "INDENT"
  | .dedent => "DEDENT"
  | .eof => "EOF"

def Kind.all : List Kind :=
  [.name, .number, .string, .char, .bool, .keyword, .op, .newline, .indent, .dedent, .eof]

/-- The kind with a given word. -/
def Kind.ofLabel? (label : String) : Option Kind := Kind.all.find? (·.label == label)

/-- Kinds that stand for text of the source, as opposed to line ends and indentation. -/
def Kind.isOrdinary : Kind → Bool
  | .newline | .indent | .dedent | .eof => false
  | _ => true

end Token

/-- A token: its kind, its text, its place, and the offset of its first character. -/
structure Token where
  kind : Token.Kind
  lexeme : String
  line : Nat
  column : Nat
  start : Nat
  deriving DecidableEq, Repr

namespace Token

def location (t : Token) : Location := ⟨t.line, t.column⟩

/-- Why a source text has no tokens. -/
inductive Fault where
  | tabInIndentation
  | inconsistentDedent (column : Nat)
  | tabCharacter
  | unrecognized (c : Char)
  | unknownEscape (c : Char)
  | notOneCharacter
  | unterminatedString
  | unterminatedCharacter
  deriving DecidableEq, Repr

def Fault.message : Fault → String
  | .tabInIndentation => "tab character in indentation"
  | .inconsistentDedent column =>
    "inconsistent dedent: column " ++ toString column ++
      " matches no enclosing indentation level"
  | .tabCharacter => "tab characters are not allowed"
  | .unrecognized c => "unrecognized character " ++ Text.inspect (String.singleton c)
  | .unknownEscape c => "unknown escape sequence \\" ++ String.singleton c
  | .notOneCharacter => "character literal must hold exactly one character"
  | .unterminatedString => "unterminated string literal"
  | .unterminatedCharacter => "unterminated character literal"

/-- A lexical fault and its place. -/
structure Error where
  fault : Fault
  location : Location
  deriving DecidableEq, Repr

def Error.message (e : Error) : String :=
  placed ("LexError: " ++ e.fault.message) (some e.location.text)

end Token

end TillLang
