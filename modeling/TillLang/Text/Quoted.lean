/-
  TillLang.Text.Quoted — the written form of string and character literals.

  A literal stands between two copies of its delimiter. Inside it a backslash announces
  one character: `n`, `t` and `0` stand for a line break, a tab and the null character,
  a backslash and both quotes stand for themselves.
  - `encode` writes a text: the delimiter and the four characters that have to be
    written by an escape are escaped, all else is kept.
  - `decode` drops the first and the last character and resolves the escapes.
-/

namespace TillLang.Text.Quoted

/-- The character an escape stands for, by the character after the backslash. -/
def unescape? : Char → Option Char
  | 'n' => some '\n'
  | 't' => some '\t'
  | '0' => some '\x00'
  | '\\' => some '\\'
  | '"' => some '"'
  | '\'' => some '\''
  | _ => none

/-- The character written after a backslash, for characters that are always escaped. -/
def escape? : Char → Option Char
  | '\n' => some 'n'
  | '\t' => some 't'
  | '\x00' => some '0'
  | '\\' => some '\\'
  | _ => none

def encodeChar (delimiter c : Char) : List Char :=
  if c = delimiter then ['\\', c]
  else match escape? c with
    | some e => ['\\', e]
    | none => [c]

def encodeBody (delimiter : Char) (text : List Char) : List Char :=
  text.flatMap (encodeChar delimiter)

/-- The written form of a text between two copies of `delimiter`. -/
def encode (delimiter : Char) (text : List Char) : List Char :=
  delimiter :: (encodeBody delimiter text ++ [delimiter])

inductive Fault where
  | unknownEscape (c : Char)
  | danglingBackslash
  deriving DecidableEq, Repr

/-- The text written between two delimiters. -/
def decodeBody : List Char → Except Fault (List Char)
  | [] => .ok []
  | '\\' :: [] => .error .danglingBackslash
  | '\\' :: e :: rest =>
    match unescape? e with
    | none => .error (.unknownEscape e)
    | some c => (c :: ·) <$> decodeBody rest
  | c :: rest => (c :: ·) <$> decodeBody rest

/-- The text of a literal, whose first and last characters are taken for its delimiters. -/
def decode (written : List Char) : Except Fault (List Char) :=
  decodeBody written.tail.dropLast

end TillLang.Text.Quoted
