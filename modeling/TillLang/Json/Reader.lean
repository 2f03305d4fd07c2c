/-
  TillLang.Json.Reader — JSON text to values.

  Besides the standard the reader takes the words for infinity and for the result of an
  operation without a result. The last of two fields with one name wins. A complaint
  names the place by line, column and offset. Two bounds are part of the format: integers
  of more than 4300 digits are refused, and so are values nested past the given limit.
-/

import TillLang.Decimal.Reading
import TillLang.Json.Basic

namespace TillLang.Json

/-- What the text should have held at the place of a complaint. -/
inductive Complaint where
  | value
  | propertyName
  | comma
  | colon
  | closingQuote
  | endOfText
  | plainStart
  | plainCharacter
  | escape
  | codePoint
  deriving DecidableEq, Repr

def Complaint.message : Complaint → String
  | .value => "Expecting value"
  | .propertyName => "Expecting property name enclosed in double quotes"
  | .comma => "Expecting ',' delimiter"
  | .colon => "Expecting ':' delimiter"
  | .closingQuote => "Unterminated string starting at"
  | .endOfText => "Extra data"
  | .plainStart => "Unexpected UTF-8 BOM (decode using utf-8-sig)"
  | .plainCharacter => "Invalid control character at"
  | .escape => "Invalid \\escape"
  | .codePoint => "Invalid \\uXXXX escape"

inductive Fault where
  | malformed (complaint : Complaint) (offset : Nat)
  | tooManyDigits (count : Nat)
  | nestedArray
  | nestedObject
  deriving DecidableEq, Repr

/-- The rest of a text, and how much of it was read. -/
structure Input where
  offset : Nat
  rest : List Char

namespace Input

def skip (i : Input) (n : Nat) : Input := ⟨i.offset + n, i.rest.drop n⟩

def isSpace (c : Char) : Bool := c = ' ' || c = '\t' || c = '\n' || c = '\r'

def skipSpaces (i : Input) : Input :=
  ⟨i.offset + (i.rest.takeWhile isSpace).length, i.rest.dropWhile isSpace⟩

def fail (i : Input) (complaint : Complaint) : Except Fault α :=
  .error (.malformed complaint i.offset)

end Input

/-- A part of the text that is read from an input. -/
abbrev Reader (α : Type) := Input → Except Fault (α × Input)

/-! ## Strings -/

def hexValue? (c : Char) : Option Nat :=
  if '0' ≤ c && c ≤ '9' then some (c.toNat - '0'.toNat)
  else if 'a' ≤ c && c ≤ 'f' then some (c.toNat - 'a'.toNat + 10)
  else if 'A' ≤ c && c ≤ 'F' then some (c.toNat - 'A'.toNat + 10)
  else none

/-- The number written by the four hexadecimal digits in front of a text. -/
def hex4? : List Char → Option Nat
  | a :: b :: c :: d :: _ => do
    return (((← hexValue? a) * 16 + (← hexValue? b)) * 16 + (← hexValue? c)) * 16 + (← hexValue? d)
  | _ => none

/-- The character of a one-letter escape. -/
def simpleEscape? : Char → Option Char
  | '"' => some '"'
  | '\\' => some '\\'
  | '/' => some '/'
  | 'b' => some '\x08'
  | 'f' => some '\x0c'
  | 'n' => some '\n'
  | 'r' => some '\r'
  | 't' => some '\t'
  | _ => none

/-- The character of a numeric escape, and the input after it; `i` stands at the letter
after the backslash. Two halves of a surrogate pair make one character. -/
def numericEscape (i : Input) : Except Fault (Char × Input) :=
  let digits := i.rest.drop 1
  if digits.length ≤ 4 then i.fail .codePoint
  else match hex4? digits with
    | none => i.fail .codePoint
    | some n =>
      let single := (Char.ofNat n, i.skip 5)
      if 0xD800 ≤ n && n < 0xDC00 then
        match digits.drop 4 with
        | '\\' :: 'u' :: low =>
          if low.length ≤ 4 then .ok single
          else match hex4? low with
            | none => (i.skip 6).fail .codePoint
            | some m =>
              if 0xDC00 ≤ m && m < 0xE000 then
                .ok (Char.ofNat (0x10000 + (n - 0xD800) * 0x400 + (m - 0xDC00)), i.skip 11)
              else .ok single
        | _ => .ok single
      else .ok single

/-- The characters up to the closing quote, after those in `done` (last first). A string
has no more characters than the text, which bounds the steps. -/
def readChars (start : Nat) : Nat → List Char → Reader String
  | 0, _, _ => .error (.malformed .closingQuote start)
  | steps + 1, done, i =>
    match i.rest with
    | [] => .error (.malformed .closingQuote start)
    | '"' :: _ => .ok (String.ofList done.reverse, i.skip 1)
    | '\\' :: [] => .error (.malformed .closingQuote start)
    | '\\' :: 'u' :: _ => do
      let (c, after) ← numericEscape (i.skip 1)
      readChars start steps (c :: done) after
    | '\\' :: e :: _ =>
      match simpleEscape? e with
      | some c => readChars start steps (c :: done) (i.skip 2)
      | none => i.fail .escape
    | c :: _ =>
      if c.toNat < 0x20 then i.fail .plainCharacter
      else readChars start steps (c :: done) (i.skip 1)

def readString : Reader String := fun i =>
  readChars i.offset (i.rest.length + 1) [] (i.skip 1)

/-! ## Numbers -/

/-- The most digits an integer may have. -/
def maxIntegerDigits : Nat := 4300

/-- The digits in front of a text, without a leading zero before other digits. -/
def integerDigits : List Char → List Char
  | '0' :: _ => ['0']
  | text => text.takeWhile Decimal.isPlainDigit

/-- A decimal point and digits in front of a text. -/
def fractionPart : List Char → List Char
  | '.' :: rest =>
    let digits := rest.takeWhile Decimal.isPlainDigit
    if digits.isEmpty then [] else '.' :: digits
  | _ => []

/-- An exponent in front of a text. -/
def exponentPart : List Char → List Char
  | c :: rest =>
    if c = 'e' || c = 'E' then
      let sign := (rest.take 1).filter fun s => s = '+' || s = '-'
      let digits := (rest.drop sign.length).takeWhile Decimal.isPlainDigit
      if digits.isEmpty then [] else c :: (sign ++ digits)
    else []
  | [] => []

def readNumber : Reader Json := fun i =>
  let negative := i.rest.head? == some '-'
  let unsigned := i.skip (if negative then 1 else 0)
  let whole := integerDigits unsigned.rest
  if whole.isEmpty then i.fail .value
  else
    let afterWhole := unsigned.skip whole.length
    let fraction := fractionPart afterWhole.rest
    let afterFraction := afterWhole.skip fraction.length
    let exponent := exponentPart afterFraction.rest
    let after := afterFraction.skip exponent.length
    if fraction.isEmpty && exponent.isEmpty then
      if maxIntegerDigits < whole.length then .error (.tooManyDigits whole.length)
      else
        let n : Int := Decimal.ofDigits (whole.map Decimal.plainValue)
        .ok (.int (if negative then -n else n), after)
    else
      match Decimal.readScientific? (whole ++ fraction ++ exponent) with
      | some s => .ok (.float (Decimal.nearest negative s), after)
      | none => i.fail .value

/-! ## Values -/

/-- Words that stand for a value. -/
def words : List (String × Json) :=
  [("null", .null), ("true", .bool true), ("false", .bool false),
   ("NaN", .float Decimal.notANumber),
   ("Infinity", .float (Decimal.floatOfBits false Decimal.infinityBits)),
   ("-Infinity", .float (Decimal.floatOfBits true Decimal.infinityBits))]

def readWord? (i : Input) : Option (Json × Input) :=
  (words.find? fun w => w.1.toList.isPrefixOf i.rest).map fun w => (w.2, i.skip w.1.length)

/-- The items of a list up to the closing bracket, after those in `done` (last first). -/
def readItems (item : Reader Json) : Nat → List Json → Reader (List Json)
  | 0, _, i => i.fail .comma
  | steps + 1, done, i => do
    let (value, after) ← item i
    let next := after.skipSpaces
    match next.rest with
    | ']' :: _ => return ((value :: done).reverse, next.skip 1)
    | ',' :: _ => readItems item steps (value :: done) (next.skip 1).skipSpaces
    | _ => next.fail .comma

/-- The fields of an object up to the closing brace, after those in `done`. -/
def readFields (item : Reader Json) : Nat → List (String × Json) → Reader (List (String × Json))
  | 0, _, i => i.fail .comma
  | steps + 1, done, i => do
    if i.rest.head? != some '"' then i.fail .propertyName
    let (key, afterKey) ← readString i
    let colon := afterKey.skipSpaces
    if colon.rest.head? != some ':' then colon.fail .colon
    let (value, after) ← item (colon.skip 1).skipSpaces
    let fields := setField done key value
    let next := after.skipSpaces
    match next.rest with
    | '}' :: _ => return (fields, next.skip 1)
    | ',' :: _ => readFields item steps fields (next.skip 1).skipSpaces
    | _ => next.fail .comma

/-- A value nested at most `limit` deep. -/
def readValue (limit : Nat) : Reader Json := fun i =>
  match i.rest with
  | '"' :: _ => do
    let (s, after) ← readString i
    return (.str s, after)
  | '[' :: _ =>
    match limit with
    | 0 => .error .nestedArray
    | limit + 1 => do
      let first := (i.skip 1).skipSpaces
      if first.rest.head? == some ']' then return (.list [], first.skip 1)
      let (items, after) ← readItems (readValue limit) (i.rest.length + 1) [] first
      return (.list items, after)
  | '{' :: _ =>
    match limit with
    | 0 => .error .nestedObject
    | limit + 1 => do
      let first := (i.skip 1).skipSpaces
      if first.rest.head? == some '}' then return (.object [], first.skip 1)
      let (fields, after) ← readFields (readValue limit) (i.rest.length + 1) [] first
      return (.object fields, after)
  | _ =>
    match readWord? i with
    | some found => .ok found
    | none => readNumber i

/-- The value a whole text stands for. -/
def parseChars (limit : Nat) (text : List Char) : Except Fault Json := do
  let i : Input := ⟨0, text⟩
  if text.head? == some '\uFEFF' then i.fail .plainStart
  let (value, after) ← readValue limit i.skipSpaces
  let last := after.skipSpaces
  if last.rest.isEmpty then return value else last.fail .endOfText

def parse (limit : Nat) (text : String) : Except Fault Json := parseChars limit text.toList

/-! ## Messages -/

/-- What is wrong with `text`, and where. -/
def Fault.message (text : String) : Fault → String
  | .malformed complaint offset =>
    let before := text.toList.take offset
    let line := before.count '\n' + 1
    let column := (before.reverse.takeWhile (· != '\n')).length + 1
    complaint.message ++ ": line " ++ toString line ++ " column " ++ toString column ++
      " (char " ++ toString offset ++ ")"
  | .tooManyDigits count =>
    "Exceeds the limit (" ++ toString maxIntegerDigits ++
      " digits) for integer string conversion: value has " ++ toString count ++
      " digits; use sys.set_int_max_str_digits() to increase the limit"
  | .nestedArray =>
    "maximum recursion depth exceeded while decoding a JSON array from a unicode string"
  | .nestedObject =>
    "maximum recursion depth exceeded while decoding a JSON object from a unicode string"

end TillLang.Json
