/-
  TillLang.Text.Ranges — sets of characters given by ascending ranges of code points.

  A character class of the character standard is a table of closed ranges, lowest first.
  Looking a code point up stops at the first range that starts above it, so characters
  of the Latin block are decided after a handful of comparisons.
-/

namespace TillLang.Text

/-- Closed ranges of code points, ascending and disjoint. -/
abbrev Ranges := List (Nat × Nat)

def Ranges.covers : Ranges → Nat → Bool
  | [], _ => false
  | (lo, hi) :: rest, n => if n < lo then false else n ≤ hi || Ranges.covers rest n

/-- The distance of a code point from the start of the range that holds it. -/
def Ranges.offset? : Ranges → Nat → Option Nat
  | [], _ => none
  | (lo, hi) :: rest, n =>
    if n < lo then none else if n ≤ hi then some (n - lo) else Ranges.offset? rest n

end TillLang.Text
