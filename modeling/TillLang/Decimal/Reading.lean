/-
  TillLang.Decimal.Reading — the double a written number denotes.

  A written number is a sign, digits with at most one decimal point, and an exponent, or
  one of the words for infinity and for the result of an operation without a result, in
  any case. Digits of every script count, one underscore may stand between two digits,
  and white space around the number is dropped. The double is the one nearest to the
  written number.
-/

import TillLang.Decimal.Shortest
import TillLang.Text.Blank
import TillLang.Text.Numeral

namespace TillLang.Decimal

/-- The number written by digits, highest first. -/
def ofDigits (digits : List Nat) : Nat := digits.foldl (fun n d => 10 * n + d) 0

/-- The double nearest to `digits · 10 ^ exponent`. Exponents that cannot change the
answer are not multiplied out: the number is then past the largest double, or below half
of the smallest. -/
def nearest (negative : Bool) (s : Scientific) : Float :=
  let size := (digitCount s.digits : Int) + s.exponent
  let bits :=
    if s.digits = 0 || size < -400 then 0
    else if 400 < size then infinityBits
    else nearestBits ((Fraction.mk s.digits 1).scale10 s.exponent)
  floatOfBits negative bits

/-- Digits of one script or another as plain digits, in front of a text. -/
def plainDigit (c : Char) : Char :=
  match Text.digitValue? c with
  | some d => Nat.digitChar d
  | none => c

def isPlainDigit (c : Char) : Bool := '0' ≤ c && c ≤ '9'

def plainValue (c : Char) : Nat := c.toNat - '0'.toNat

/-- A text without its underscores, if each of them stands between two digits. -/
def dropUnderscores? : Bool → List Char → Option (List Char)
  | _, [] => some []
  | afterDigit, '_' :: c :: rest =>
    if afterDigit && isPlainDigit c then (c :: ·) <$> dropUnderscores? true rest else none
  | _, ['_'] => none
  | _, c :: rest => (c :: ·) <$> dropUnderscores? (isPlainDigit c) rest

/-- A sign in front of a text; a text without one is positive. -/
def takeSign : List Char → Bool × List Char
  | '+' :: rest => (false, rest)
  | '-' :: rest => (true, rest)
  | text => (false, text)

def readExponent? : List Char → Option Int
  | [] => some 0
  | c :: rest =>
    if c = 'e' || c = 'E' then
      let (negative, digits) := takeSign rest
      if digits.isEmpty || !digits.all isPlainDigit then none
      else
        let n : Int := ofDigits (digits.map plainValue)
        some (if negative then -n else n)
    else none

/-- Digits with at most one decimal point, and an exponent. -/
def readScientific? (text : List Char) : Option Scientific :=
  let whole := text.takeWhile isPlainDigit
  let rest := text.dropWhile isPlainDigit
  let (fraction, rest) := match rest with
    | '.' :: rest => (rest.takeWhile isPlainDigit, rest.dropWhile isPlainDigit)
    | rest => ([], rest)
  if whole.isEmpty && fraction.isEmpty then none
  else do
    let exponent ← readExponent? rest
    return ⟨ofDigits ((whole ++ fraction).map plainValue), exponent - fraction.length⟩

def readUnsigned? (negative : Bool) (text : List Char) : Option Float :=
  let word := String.ofList (text.map Char.toLower)
  if word = "inf" || word = "infinity" then some (floatOfBits negative infinityBits)
  else if word = "nan" then some notANumber
  else (nearest negative ·) <$> readScientific? text

def read? (text : String) : Option Float := do
  let plain ← dropUnderscores? false ((Text.trimBlanks text.toList).map plainDigit)
  let (negative, rest) := takeSign plain
  readUnsigned? negative rest

end TillLang.Decimal
