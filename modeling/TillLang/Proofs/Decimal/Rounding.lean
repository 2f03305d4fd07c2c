/-
  TillLang.Proofs.Decimal.Rounding — the pattern nearest to a fraction.

  A magnitude stands for the rationals that round to it: those of an interval around it, with
  its ends if the mantissa is even (`Magnitude.Draws`). Whatever fraction lies in that interval,
  `nearestBits` gives the pattern of the magnitude (`nearestBits_of_draws`). The interval is
  shorter below a power of two, where the mantissa is the lowest of its exponent; a fraction from
  there has the next smaller unit, and its mantissa is rounded up to the power of two.
-/

import Mathlib.Algebra.Order.Field.Basic
import Mathlib.Algebra.Order.Field.Power
import Mathlib.Data.Rat.Cast.Order
import Mathlib.Tactic.FieldSimp
import Mathlib.Tactic.Linarith
import Mathlib.Tactic.Ring
import TillLang.Decimal.Binary

namespace TillLang.Decimal

/-! ## Values -/

/-- The rational a fraction is. -/
def Fraction.value (f : Fraction) : ℚ := f.num / f.den

/-- The rational a magnitude is. -/
def Magnitude.value (m : Magnitude) : ℚ := m.mantissa * 2 ^ m.exponent

theorem Magnitude.toFraction_den (m : Magnitude) : 0 < m.toFraction.den := by
  unfold toFraction
  split
  · exact Nat.one_pos
  · exact Nat.two_pow_pos _

theorem Magnitude.toFraction_value (m : Magnitude) : m.toFraction.value = m.value := by
  unfold toFraction
  split
  · rename_i h
    obtain ⟨k, hk⟩ := Int.eq_ofNat_of_zero_le h
    simp [Fraction.value, value, hk]
  · rename_i h
    obtain ⟨k, hk⟩ := Int.eq_ofNat_of_zero_le (show 0 ≤ -m.exponent by omega)
    have he : m.exponent = -(k : Int) := by omega
    simp [Fraction.value, value, he, div_eq_mul_inv]

/-! ## Rounding a quotient -/

/-- A rational is rounded to a number: it is at most one half away, and less than that if the number is odd. -/
structure RoundsTo (x : ℚ) (n : Nat) : Prop where
  low : 2 * (n : ℚ) ≤ 2 * x + 1
  high : 2 * x ≤ 2 * (n : ℚ) + 1
  odd : n % 2 = 1 → 2 * (n : ℚ) < 2 * x + 1 ∧ 2 * x < 2 * (n : ℚ) + 1

/-- A quotient is compared with halves by comparing multiples of its denominator. -/
theorem RoundsTo.multiples {num den n : Nat} (hden : 0 < den) (h : RoundsTo (num / den) n) :
    2 * n * den ≤ 2 * num + den ∧ 2 * num ≤ 2 * n * den + den ∧
      (n % 2 = 1 → 2 * n * den < 2 * num + den ∧ 2 * num < 2 * n * den + den) := by
  have hpos : (0 : ℚ) < den := by exact_mod_cast hden
  have hx : (den : ℚ) * (num / den) = num := mul_div_cancel₀ _ hpos.ne'
  have hlow : 2 * n * den ≤ 2 * num + den := by
    have := mul_le_mul_of_nonneg_left h.low hpos.le
    have : (2 * n * den : ℚ) ≤ 2 * num + den := by linarith
    exact_mod_cast this
  have hhigh : 2 * num ≤ 2 * n * den + den := by
    have := mul_le_mul_of_nonneg_left h.high hpos.le
    have : (2 * num : ℚ) ≤ 2 * n * den + den := by linarith
    exact_mod_cast this
  refine ⟨hlow, hhigh, fun hn => ?_⟩
  obtain ⟨h₁, h₂⟩ := h.odd hn
  have h₁ := mul_lt_mul_of_pos_left h₁ hpos
  have h₂ := mul_lt_mul_of_pos_left h₂ hpos
  have h₁ : (2 * n * den : ℚ) < 2 * num + den := by linarith
  have h₂ : (2 * num : ℚ) < 2 * n * den + den := by linarith
  exact ⟨by exact_mod_cast h₁, by exact_mod_cast h₂⟩

theorem roundDiv_of_roundsTo {num den n : Nat} (hden : 0 < den) (h : RoundsTo (num / den) n) :
    roundDiv num den = n := by
  obtain ⟨hlow, hhigh, hodd⟩ := h.multiples hden
  have hdiv := Nat.div_add_mod num den
  have hmod := Nat.mod_lt num hden
  unfold roundDiv
  generalize num / den = q at *
  generalize num % den = r at *
  subst hdiv
  have hle : n ≤ q + 1 := by
    by_contra hlt
    have : den * (q + 2) ≤ den * n := Nat.mul_le_mul_left den (by omega)
    nlinarith
  have hge : q ≤ n := by
    by_contra hlt
    have : den * (n + 1) ≤ den * q := Nat.mul_le_mul_left den (by omega)
    nlinarith
  rcases (show n = q ∨ n = q + 1 by omega) with rfl | rfl
  · have h₁ : 2 * r ≤ den := by nlinarith
    have h₂ : n % 2 = 1 → 2 * r < den := fun hn => by nlinarith [hodd hn]
    grind
  · have h₁ : den ≤ 2 * r := by nlinarith
    have h₂ : (q + 1) % 2 = 1 → den < 2 * r := fun hn => by nlinarith [hodd hn]
    grind

/-! ## The unit of a fraction -/

section Positive

variable {f : Fraction} (hnum : 0 < f.num) (hden : 0 < f.den)

/-- A fraction over a power of two, as the quotient that is rounded. -/
theorem value_div_two_zpow (f : Fraction) (unit : Int) :
    f.value / 2 ^ unit = if 0 ≤ unit then (f.num : ℚ) / (f.den * 2 ^ unit.toNat : Nat)
      else (f.num * 2 ^ (-unit).toNat : Nat) / (f.den : ℚ) := by
  split
  · rename_i h
    obtain ⟨k, rfl⟩ := Int.eq_ofNat_of_zero_le h
    simp [Fraction.value, div_div]
  · rename_i h
    obtain ⟨k, hk⟩ := Int.eq_ofNat_of_zero_le (show 0 ≤ -unit by omega)
    obtain rfl : unit = -(k : Int) := by omega
    simp [Fraction.value, div_mul_eq_mul_div]

include hden

theorem lt_two_zpow_iff (e : Int) :
    f.value < 2 ^ e ↔ if 0 ≤ e then f.num < f.den * 2 ^ e.toNat else f.num * 2 ^ (-e).toNat < f.den := by
  have hpow : (0 : ℚ) < 2 ^ e := zpow_pos (by norm_num) e
  have hden' : (0 : ℚ) < f.den := by exact_mod_cast hden
  rw [← div_lt_one hpow, value_div_two_zpow]
  split
  · have hprod : (0 : ℚ) < (f.den * 2 ^ e.toNat : Nat) := by
      exact_mod_cast Nat.mul_pos hden (Nat.two_pow_pos _)
    rw [div_lt_one hprod]
    exact_mod_cast Iff.rfl
  · rw [div_lt_one hden']
    exact_mod_cast Iff.rfl

include hnum

theorem Fraction.two_zpow_log2_le : (2 : ℚ) ^ f.log2 ≤ f.value ∧ f.value < 2 ^ (f.log2 + 1) := by
  have hden' : (0 : ℚ) < f.den := by exact_mod_cast hden
  -- Numerator and denominator are between two powers of two each.
  have hn₁ : ((2 ^ f.num.log2 : Nat) : ℚ) ≤ f.num := by exact_mod_cast Nat.log2_self_le hnum.ne'
  have hn₂ : (f.num : ℚ) < (2 ^ (f.num.log2 + 1) : Nat) := by exact_mod_cast Nat.lt_log2_self
  have hd₁ : ((2 ^ f.den.log2 : Nat) : ℚ) ≤ f.den := by exact_mod_cast Nat.log2_self_le hden.ne'
  have hd₂ : (f.den : ℚ) < (2 ^ (f.den.log2 + 1) : Nat) := by exact_mod_cast Nat.lt_log2_self
  push_cast at hn₁ hn₂ hd₁ hd₂
  have hguess : ∀ k : Int,
      (2 : ℚ) ^ ((f.num.log2 : Int) - f.den.log2 + k) * 2 ^ f.den.log2 = 2 ^ f.num.log2 * 2 ^ k := by
    intro k
    rw [← zpow_natCast, ← zpow_natCast, ← zpow_add₀ (by norm_num), ← zpow_add₀ (by norm_num)]
    congr 1
    omega
  have hpow : ∀ k : Int, (0 : ℚ) < 2 ^ ((f.num.log2 : Int) - f.den.log2 + k) := fun k => zpow_pos (by norm_num) _
  have hhigh : f.value < 2 ^ ((f.num.log2 : Int) - f.den.log2 + 1) := by
    rw [Fraction.value, div_lt_iff₀ hden']
    have h := hguess 1
    have := mul_le_mul_of_nonneg_left hd₁ (hpow 1).le
    rw [zpow_one] at h
    rw [pow_succ] at hn₂
    linarith
  have hlow : (2 : ℚ) ^ ((f.num.log2 : Int) - f.den.log2 + -1) ≤ f.value := by
    rw [Fraction.value, le_div_iff₀ hden']
    have h := hguess (-1)
    have := mul_le_mul_of_nonneg_left hd₂.le (hpow (-1)).le
    rw [pow_succ] at this
    rw [zpow_neg_one] at h
    linarith
  have hbelow := lt_two_zpow_iff hden ((f.num.log2 : Int) - f.den.log2)
  by_cases hlt : f.value < 2 ^ ((f.num.log2 : Int) - f.den.log2)
  · have hlog : f.log2 = (f.num.log2 : Int) - f.den.log2 - 1 := if_pos (hbelow.mp hlt)
    rw [hlog, sub_add_cancel]
    exact ⟨hlow, hlt⟩
  · have hlog : f.log2 = (f.num.log2 : Int) - f.den.log2 := if_neg fun h => hlt (hbelow.mpr h)
    rw [hlog]
    exact ⟨not_lt.mp hlt, hhigh⟩

/-- The unit is found by comparing a scaled fraction with powers of two. -/
theorem Fraction.log2_lt {e : Int} {k : Nat} (h : f.value / 2 ^ e < 2 ^ k) : f.log2 < e + k := by
  rw [div_lt_iff₀ (zpow_pos (by norm_num) e), ← zpow_natCast, ← zpow_add₀ (by norm_num), add_comm] at h
  exact (zpow_lt_zpow_iff_right₀ (by norm_num : (1 : ℚ) < 2)).mp ((two_zpow_log2_le hnum hden).1.trans_lt h)

theorem Fraction.le_log2 {e : Int} {k : Nat} (h : 2 ^ k ≤ f.value / 2 ^ e) : e + k ≤ f.log2 := by
  rw [le_div_iff₀ (zpow_pos (by norm_num) e), ← zpow_natCast, ← zpow_add₀ (by norm_num), add_comm] at h
  have := (zpow_lt_zpow_iff_right₀ (by norm_num : (1 : ℚ) < 2)).mp (h.trans_lt (two_zpow_log2_le hnum hden).2)
  omega

omit hnum in
theorem nearestBits_of_unit {unit : Int} {n : Nat} (hunit : max (f.log2 - 52) (-1074) = unit)
    (h : RoundsTo (f.value / 2 ^ unit) n) :
    nearestBits f = min infinityBits ((unit + 1074).toNat * 2 ^ 52 + n) := by
  rw [value_div_two_zpow] at h
  unfold nearestBits
  simp only [hunit]
  congr 2
  split
  · rename_i hu
    rw [if_pos hu] at h
    exact roundDiv_of_roundsTo (Nat.mul_pos hden (Nat.two_pow_pos _)) h
  · rename_i hu
    rw [if_neg hu] at h
    exact roundDiv_of_roundsTo hden h

end Positive

/-! ## Magnitudes -/

/-- The magnitude is the lowest of its exponent, and there is a smaller exponent. -/
def Magnitude.IsLowest (m : Magnitude) : Prop := m.mantissa = 2 ^ 52 ∧ m.exponent ≠ -1074

instance (m : Magnitude) : Decidable m.IsLowest := inferInstanceAs (Decidable (_ ∧ _))

/-- A rational rounds to a magnitude. -/
structure Magnitude.Draws (m : Magnitude) (x : ℚ) : Prop where
  rounds : RoundsTo (x / 2 ^ m.exponent) m.mantissa
  lowest : m.IsLowest → 4 * (m.mantissa : ℚ) ≤ 4 * (x / 2 ^ m.exponent) + 1

/-- The magnitudes that finite doubles have. -/
structure Magnitude.IsFinite (m : Magnitude) : Prop where
  exponent : -1074 ≤ m.exponent
  bound : m.mantissa < 2 ^ 53
  normal : m.exponent = -1074 ∨ 2 ^ 52 ≤ m.mantissa

theorem Magnitude.ofBits_isFinite (bits : Nat) : (Magnitude.ofBits bits).IsFinite := by
  unfold ofBits
  have := Nat.mod_lt bits (Nat.two_pow_pos 52)
  simp only [Nat.pow_eq]
  split
  · exact ⟨by simp, by simp only; omega, .inl rfl⟩
  · exact ⟨by simp only; omega, by simp only; omega, .inr (by simp only; omega)⟩

/-- A pattern is its exponent and its mantissa, side by side. -/
theorem Magnitude.bits_eq (bits : Nat) :
    ((Magnitude.ofBits bits).exponent + 1074).toNat * 2 ^ 52 + (Magnitude.ofBits bits).mantissa = bits := by
  unfold ofBits
  have := Nat.div_add_mod bits (2 ^ 52)
  simp only [Nat.pow_eq]
  split
  · simp only
    omega
  · simp only
    omega

/-- The pattern nearest to a fraction is the one of the magnitude it rounds to. -/
theorem nearestBits_of_draws {f : Fraction} (hnum : 0 < f.num) (hden : 0 < f.den) {bits : Nat}
    (hbits : bits < infinityBits) (h : (Magnitude.ofBits bits).Draws f.value) : nearestBits f = bits := by
  have hfinite := Magnitude.ofBits_isFinite bits
  have heq := Magnitude.bits_eq bits
  generalize Magnitude.ofBits bits = m at *
  obtain ⟨mantissa, exponent⟩ := m
  obtain ⟨hexponent, hbound, hnormal⟩ := hfinite
  obtain ⟨⟨hlow, hhigh, hodd⟩, hlowest⟩ := h
  simp only at *
  have hmantissa : (mantissa : ℚ) + 1 ≤ 2 ^ 53 := by exact_mod_cast hbound
  have hlt : f.log2 < exponent + 53 := Fraction.log2_lt hnum hden (by linarith)
  by_cases hunit : max (f.log2 - 52) (-1074) = exponent
  · rw [nearestBits_of_unit hden hunit ⟨hlow, hhigh, hodd⟩, heq]
    exact Nat.min_eq_right hbits.le
  · -- The fraction is below the lowest mantissa of the exponent.
    have hexp : exponent ≠ -1074 := fun h => hunit (by omega)
    have hge : 2 ^ 52 ≤ mantissa := hnormal.resolve_left hexp
    have hsmall : f.value / 2 ^ exponent < 2 ^ 52 := by
      by_contra hle
      have h52 : exponent + 52 ≤ f.log2 := Fraction.le_log2 hnum hden (not_lt.mp hle)
      exact hunit (by omega)
    obtain rfl : mantissa = 2 ^ 52 := by
      by_contra hne
      have : (2 : ℚ) ^ 52 + 1 ≤ mantissa := by exact_mod_cast Nat.lt_of_le_of_ne hge (Ne.symm hne)
      linarith
    have hquarter := hlowest ⟨rfl, hexp⟩
    push_cast at hquarter
    have h51 : exponent + 51 ≤ f.log2 := Fraction.le_log2 hnum hden (by linarith)
    have h52 : f.log2 < exponent + 52 := Fraction.log2_lt hnum hden hsmall
    have hhalf : f.value / 2 ^ (exponent - 1) = 2 * (f.value / 2 ^ exponent) := by
      rw [zpow_sub_one₀ (by norm_num)]
      field_simp
    have hrounds : RoundsTo (f.value / 2 ^ (exponent - 1)) (2 ^ 53) := by
      rw [hhalf]
      refine ⟨?_, ?_, fun h => ?_⟩
      · push_cast
        linarith
      · push_cast
        linarith
      · simp at h
    rw [nearestBits_of_unit hden (by omega) hrounds]
    have hsucc : (exponent + 1074).toNat = (exponent - 1 + 1074).toNat + 1 := by omega
    have hsum : (exponent - 1 + 1074).toNat * 2 ^ 52 + 2 ^ 53 = bits := by
      rw [← heq, hsucc]
      ring
    rw [hsum]
    exact Nat.min_eq_right hbits.le

end TillLang.Decimal
