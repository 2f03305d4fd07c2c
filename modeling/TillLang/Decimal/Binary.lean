/-
  TillLang.Decimal.Binary — what a double denotes, and the double nearest to a fraction.

  A finite double is a sign and a magnitude `mantissa · 2 ^ exponent`. Both directions
  work on the bit pattern with exact natural numbers:
  - `Magnitude.ofBits` takes the pattern of a magnitude apart;
  - `nearestBits` gives the pattern nearest to a fraction, a tie going to the even
    pattern and everything past the largest magnitude to infinity.
-/

namespace TillLang.Decimal

/-- A fraction with a positive denominator. -/
structure Fraction where
  num : Nat
  den : Nat
  deriving Repr

/-- The number `mantissa · 2 ^ exponent`. -/
structure Magnitude where
  mantissa : Nat
  exponent : Int
  deriving DecidableEq, Repr

def Magnitude.toFraction (m : Magnitude) : Fraction :=
  if 0 ≤ m.exponent then ⟨m.mantissa * Nat.pow 2 m.exponent.toNat, 1⟩
  else ⟨m.mantissa, Nat.pow 2 (-m.exponent).toNat⟩

/-- The integer a magnitude is, if it is one. -/
def Magnitude.toNat? (m : Magnitude) : Option Nat :=
  let f := m.toFraction
  if f.num % f.den = 0 then some (f.num / f.den) else none

inductive Quantity where
  | finite (negative : Bool) (magnitude : Magnitude)
  | infinite (negative : Bool)
  /-- The result of an operation without a result. -/
  | undefined
  deriving DecidableEq, Repr

/-- The pattern of infinity; smaller patterns are those of finite magnitudes. -/
def infinityBits : Nat := 0x7FF0000000000000

def signBits : Nat := 0x8000000000000000

def Magnitude.ofBits (bits : Nat) : Magnitude :=
  let field : Nat := bits / Nat.pow 2 52
  let fraction : Nat := bits % Nat.pow 2 52
  if field = 0 then ⟨fraction, -1074⟩ else ⟨Nat.pow 2 52 + fraction, (field : Int) - 1075⟩

def Quantity.ofBits (bits : Nat) : Quantity :=
  let negative := decide (signBits ≤ bits)
  let magnitude := bits % signBits
  if magnitude < infinityBits then .finite negative (.ofBits magnitude)
  else if magnitude = infinityBits then .infinite negative
  else .undefined

/-- What a double denotes. -/
def Quantity.ofFloat (x : Float) : Quantity := .ofBits x.toBits.toNat

/-- The quotient rounded to the nearest integer, a tie to the even one. -/
def roundDiv (num den : Nat) : Nat :=
  let q := num / den
  let twice := 2 * (num % den)
  if twice < den || (twice = den && q % 2 = 0) then q else q + 1

/-- The exponent of the highest power of two that is at most a positive fraction. -/
def Fraction.log2 (f : Fraction) : Int :=
  let guess : Int := (f.num.log2 : Int) - (f.den.log2 : Int)
  let below :=
    if 0 ≤ guess then f.num < f.den * Nat.pow 2 guess.toNat
    else f.num * Nat.pow 2 (-guess).toNat < f.den
  if below then guess - 1 else guess

/-- The pattern of the magnitude nearest to a positive fraction. -/
def nearestBits (f : Fraction) : Nat :=
  let unit : Int := max (f.log2 - 52) (-1074)
  let mantissa :=
    if 0 ≤ unit then roundDiv f.num (f.den * Nat.pow 2 unit.toNat)
    else roundDiv (f.num * Nat.pow 2 (-unit).toNat) f.den
  min infinityBits ((unit + 1074).toNat * Nat.pow 2 52 + mantissa)

def floatOfBits (negative : Bool) (magnitude : Nat) : Float :=
  Float.ofBits (UInt64.ofNat (if negative then signBits + magnitude else magnitude))

def notANumber : Float := Float.ofBits 0x7FF8000000000000

/-- The double nearest to an integer, unless the integer is past the largest one. -/
def floatOfInt? (n : Int) : Option Float :=
  if n = 0 then some (floatOfBits false 0)
  else
    let bits := nearestBits ⟨n.natAbs, 1⟩
    if bits = infinityBits then none else some (floatOfBits (n < 0) bits)

end TillLang.Decimal
