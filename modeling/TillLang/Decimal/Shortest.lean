/-
  TillLang.Decimal.Shortest — the fewest decimal digits that read back as a given double.

  The reals that round to a magnitude form an interval around it, whose ends belong to it
  when the mantissa is even. For one digit, two digits and so on up to seventeen, the two
  neighbours of the magnitude on the grid of that many digits are tried; the first grid
  with a neighbour inside the interval wins, and of two neighbours inside the nearer one,
  or the even one when both are equally near. The first grid tried is the one above the
  leading digit, so that a magnitude just below a power of ten can round up to it.
-/

import TillLang.Decimal.Binary

namespace TillLang.Decimal

/-- The number `digits · 10 ^ exponent`. -/
structure Scientific where
  digits : Nat
  exponent : Int
  deriving DecidableEq, Repr

def digitCount (n : Nat) : Nat := (Nat.toDigits 10 n).length

/-- The exponent of the highest power of ten that is at most a positive fraction. -/
def Fraction.log10 (f : Fraction) : Int :=
  if f.den ≤ f.num then (digitCount (f.num / f.den) : Int) - 1
  else -(digitCount ((f.den + f.num - 1) / f.num - 1) : Int)

def Fraction.scale10 (f : Fraction) (k : Int) : Fraction :=
  if 0 ≤ k then ⟨f.num * Nat.pow 10 k.toNat, f.den⟩
  else ⟨f.num, f.den * Nat.pow 10 (-k).toNat⟩

/-- Four times the magnitude, and four times the lower and the upper end of the interval
of reals that round to it, in units of a quarter of its last place. The lower end is
nearer when the mantissa is the lowest of its exponent. -/
def Magnitude.interval (m : Magnitude) : Nat × Nat × Nat :=
  let lowest := m.mantissa = Nat.pow 2 52 && m.exponent ≠ -1074
  (4 * m.mantissa, 4 * m.mantissa - (if lowest then 1 else 2), 4 * m.mantissa + 2)

/-- The grid point that reads back as the magnitude, among the neighbours of the magnitude
on the grid of multiples of `10 ^ unit`. -/
def Magnitude.onGrid? (m : Magnitude) (unit : Int) : Option Nat :=
  let (mid, low, high) := m.interval
  let quarter := (Magnitude.mk 1 (m.exponent - 2)).toFraction.scale10 (-unit)
  let even := m.mantissa % 2 = 0
  let inside (n : Nat) : Bool :=
    let lo := low * quarter.num
    let hi := high * quarter.num
    let x := n * quarter.den
    if even then lo ≤ x && x ≤ hi else lo < x && x < hi
  let below := mid * quarter.num / quarter.den
  match inside below, inside (below + 1) with
  | true, true => some (roundDiv (mid * quarter.num) quarter.den)
  | true, false => some below
  | false, true => some (below + 1)
  | false, false => none

/-- The shortest digits, trying `count` grids from the grid of multiples of `10 ^ unit` on. -/
def Magnitude.shortestFrom (m : Magnitude) (unit : Int) : Nat → Scientific
  | 0 => ⟨0, 0⟩
  | count + 1 =>
    match m.onGrid? unit with
    | some digits => ⟨digits, unit⟩
    | none => m.shortestFrom (unit - 1) count

/-- The fewest digits that read back as a positive magnitude; seventeen always do. -/
def Magnitude.shortest (m : Magnitude) : Scientific :=
  m.shortestFrom (m.toFraction.log10 + 1) 19

end TillLang.Decimal
