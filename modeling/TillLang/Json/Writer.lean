/-
  TillLang.Json.Writer — values to JSON text.

  Quotes, backslashes and characters below the space are escaped, all else is written as
  it is. `compact` writes a value on one line. `indented` writes each item of a list and
  each field of an object on a line of its own, two spaces deeper than the value that
  holds it; an empty list or object stays on one line.
-/

import TillLang.Json.Basic

namespace TillLang.Json

/-- One character of a written string. -/
def encodeChar (c : Char) : List Char :=
  if c = '"' || c = '\\' then ['\\', c]
  else if c = '\n' then ['\\', 'n']
  else if c = '\r' then ['\\', 'r']
  else if c = '\t' then ['\\', 't']
  else if c = '\x08' then ['\\', 'b']
  else if c = '\x0c' then ['\\', 'f']
  else if c.toNat < 0x20 then ['\\', 'u'] ++ Text.hexDigits 4 c.toNat
  else [c]

/-- A string between its quotes. -/
def encodeString (s : String) : String :=
  "\"" ++ String.ofList (s.toList.flatMap encodeChar) ++ "\""

/-- A double; infinity and the result of an operation without a result are words. -/
def encodeNumber (x : Float) : String :=
  match Decimal.Quantity.ofFloat x with
  | .infinite false => "Infinity"
  | .infinite true => "-Infinity"
  | .undefined => "NaN"
  | .finite .. => Decimal.inspectNumber x

/-- A line break and the indentation of a level. -/
def lineBreak (level : Nat) : String := "\n" ++ String.ofList (List.replicate (2 * level) ' ')

/-- Written items between brackets, each on a line of its own one level deeper. -/
def enclose (opening closing : String) (level : Nat) (items : List String) : String :=
  if items.isEmpty then opening ++ closing
  else
    opening ++ lineBreak (level + 1) ++ ("," ++ lineBreak (level + 1)).intercalate items ++
      lineBreak level ++ closing

mutual

/-- A value on one line. -/
def compact : Json → String
  | .null => "null"
  | .bool b => if b then "true" else "false"
  | .int n => toString n
  | .float x => encodeNumber x
  | .str s => encodeString s
  | .list items => "[" ++ ", ".intercalate (compactItems items) ++ "]"
  | .object fields => "\x7b" ++ ", ".intercalate (compactFields fields) ++ "\x7d"

def compactItems : List Json → List String
  | [] => []
  | j :: rest => compact j :: compactItems rest

def compactFields : List (String × Json) → List String
  | [] => []
  | (key, j) :: rest => (encodeString key ++ ": " ++ compact j) :: compactFields rest

end

mutual

/-- A value that stands `level` levels deep, over several lines. -/
def indentedAt (level : Nat) : Json → String
  | .null => "null"
  | .bool b => if b then "true" else "false"
  | .int n => toString n
  | .float x => encodeNumber x
  | .str s => encodeString s
  | .list items => enclose "[" "]" level (indentedItems level items)
  | .object fields => enclose "\x7b" "\x7d" level (indentedFields level fields)

def indentedItems (level : Nat) : List Json → List String
  | [] => []
  | j :: rest => indentedAt (level + 1) j :: indentedItems level rest

def indentedFields (level : Nat) : List (String × Json) → List String
  | [] => []
  | (key, j) :: rest =>
    (encodeString key ++ ": " ++ indentedAt (level + 1) j) :: indentedFields level rest

end

/-- A value over several lines. -/
def indented (j : Json) : String := indentedAt 0 j

end TillLang.Json
