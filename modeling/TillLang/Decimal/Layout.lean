/-
  TillLang.Decimal.Layout — numbers as text.

  Two layouts share the shortest digits.
  - `numeral` is the text a program displays and the printer writes: an integral number
    is written by all the digits of its integer, any other number positionally with a
    decimal point. It has no exponent, so it can be read back as a literal.
  - `inspectNumber` is the text of logs and of the serialised tree: positional from
    10 ^ -4 up to 10 ^ 16, with at least one decimal, and with an exponent of at least two
    digits elsewhere.
-/

import TillLang.Decimal.Shortest

namespace TillLang.Decimal

def digitChars (n : Nat) : List Char := Nat.toDigits 10 n

/-- Digits with the decimal point after the first `point` of them; zeros fill the gap on
either side. -/
def positional (digits : List Char) (point : Int) : List Char :=
  if point ≤ 0 then '0' :: '.' :: (List.replicate (-point).toNat '0' ++ digits)
  else if digits.length ≤ point.toNat then
    digits ++ List.replicate (point.toNat - digits.length) '0'
  else digits.take point.toNat ++ '.' :: digits.drop point.toNat

/-- How many of the digits stand before the decimal point. -/
def Scientific.point (s : Scientific) : Int := (digitCount s.digits : Int) + s.exponent

def Magnitude.numeral (m : Magnitude) : List Char :=
  match m.toNat? with
  | some n => digitChars n
  | none =>
    let s := m.shortest
    positional (digitChars s.digits) s.point

def signed (negative : Bool) (text : List Char) : List Char :=
  if negative then '-' :: text else text

/-- The texts of infinity and of the result of an operation without a result. -/
def infinityText : List Char := "inf".toList

@[inherit_doc infinityText]
def undefinedText : List Char := "nan".toList

/-- The text of what a double denotes, without an exponent; a zero has no sign. -/
def Quantity.numeral : Quantity → List Char
  | .finite negative m => signed (negative && m.mantissa != 0) m.numeral
  | .infinite negative => signed negative infinityText
  | .undefined => undefinedText

/-- The text a program displays for a number. -/
def numeral (x : Float) : String := String.ofList (Quantity.ofFloat x).numeral

/-- The exponent mark, a sign and at least two digits. -/
def exponentText (e : Int) : List Char :=
  let digits := digitChars e.natAbs
  'e' :: (if e < 0 then '-' else '+') :: (if digits.length < 2 then '0' :: digits else digits)

/-- Digits with an exponent: one digit before the decimal point. -/
def exponential (digits : List Char) (point : Int) : List Char :=
  let mantissa := match digits with
    | d :: rest@(_ :: _) => d :: '.' :: rest
    | digits => digits
  mantissa ++ exponentText (point - 1)

/-- The shortest text of a magnitude, with at least one decimal or an exponent. -/
def Magnitude.inspect (m : Magnitude) : List Char :=
  if m.mantissa = 0 then ['0', '.', '0']
  else
    let s := m.shortest
    let digits := digitChars s.digits
    if s.point ≤ -4 || 16 < s.point then exponential digits s.point
    else
      let text := positional digits s.point
      if text.contains '.' then text else text ++ ['.', '0']

def Quantity.inspect : Quantity → List Char
  | .finite negative m => signed negative m.inspect
  | .infinite negative => signed negative infinityText
  | .undefined => undefinedText

/-- The text of a number in logs and in the serialised tree. -/
def inspectNumber (x : Float) : String := String.ofList (Quantity.ofFloat x).inspect

end TillLang.Decimal
