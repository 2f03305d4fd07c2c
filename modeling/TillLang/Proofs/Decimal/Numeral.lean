/-
  TillLang.Proofs.Decimal.Numeral — the text of a number is read as that number.

  The text of a finite magnitude is in plain decimals, and what it says lies in the interval
  around the magnitude: exactly in the middle if the magnitude is an integer, otherwise where the
  grid of fewest digits first meets the interval. A grid that is no wider than a quarter of the
  last place meets it, and the seventeenth grid below the leading digit is one. So the text is
  read as the double it was written for (`numeral_nearest`).
-/

import Mathlib.Data.Nat.Cast.Field
import TillLang.Decimal.Layout
import TillLang.Proofs.Decimal.Plain
import TillLang.Proofs.Decimal.Rounding

namespace TillLang.Decimal

/-- The rational that digits and an exponent are. -/
def Scientific.value (s : Scientific) : ℚ := s.digits * 10 ^ s.exponent

/-! ## Powers of ten -/

theorem Fraction.scale10_den {f : Fraction} (h : 0 < f.den) (k : Int) : 0 < (f.scale10 k).den := by
  unfold scale10
  split
  · exact h
  · exact Nat.mul_pos h (Nat.pow_pos (by norm_num))

theorem Fraction.scale10_num {f : Fraction} (h : 0 < f.num) (k : Int) : 0 < (f.scale10 k).num := by
  unfold scale10
  split
  · exact Nat.mul_pos h (Nat.pow_pos (by norm_num))
  · exact h

theorem Fraction.scale10_value (f : Fraction) (k : Int) : (f.scale10 k).value = f.value * 10 ^ k := by
  unfold scale10
  split
  · rename_i h
    obtain ⟨n, rfl⟩ := Int.eq_ofNat_of_zero_le h
    simp [value, mul_div_right_comm]
  · rename_i h
    obtain ⟨n, hn⟩ := Int.eq_ofNat_of_zero_le (show 0 ≤ -k by omega)
    obtain rfl : k = -(n : Int) := by omega
    simp [value, div_eq_mul_inv, mul_comm, mul_assoc]

theorem lt_ten_pow_digitCount (n : Nat) : n < 10 ^ digitCount n :=
  (Nat.length_toDigits_le_iff (by norm_num) Nat.length_toDigits_pos).mp (Nat.le_refl _)

theorem ten_pow_le_of_digitCount {n : Nat} (hn : 0 < n) : 10 ^ (digitCount n - 1) ≤ n := by
  by_cases h : digitCount n = 1
  · rw [h]
    exact hn
  · by_contra hlt
    have hpos : 0 < digitCount n := Nat.length_toDigits_pos
    have hle := (Nat.length_toDigits_le_iff (by norm_num) (by omega)).mpr (not_le.mp hlt)
    rw [← digitCount] at hle
    omega

/-- Digits and an exponent are between two powers of ten. -/
theorem Scientific.value_bounds {s : Scientific} (hs : 0 < s.digits) :
    (10 : ℚ) ^ ((digitCount s.digits : Int) + s.exponent - 1) ≤ s.value ∧
      s.value < 10 ^ ((digitCount s.digits : Int) + s.exponent) := by
  have hpow : (0 : ℚ) < 10 ^ s.exponent := zpow_pos (by norm_num) _
  have hcount : 0 < digitCount s.digits := Nat.length_toDigits_pos
  have hlow : ((10 ^ (digitCount s.digits - 1) : Nat) : ℚ) ≤ s.digits := by
    exact_mod_cast ten_pow_le_of_digitCount hs
  have hhigh : (s.digits : ℚ) < (10 ^ digitCount s.digits : Nat) := by
    exact_mod_cast lt_ten_pow_digitCount s.digits
  push_cast at hlow hhigh
  rw [← zpow_natCast] at hlow hhigh
  constructor
  · have h := mul_le_mul_of_nonneg_right hlow hpow.le
    rw [← zpow_add₀ (by norm_num)] at h
    have he : ((digitCount s.digits - 1 : Nat) : Int) + s.exponent = (digitCount s.digits : Int) + s.exponent - 1 := by
      omega
    rwa [he] at h
  · have h := mul_lt_mul_of_pos_right hhigh hpow
    rwa [← zpow_add₀ (by norm_num)] at h

theorem Fraction.ten_zpow_log10_le {f : Fraction} (hnum : 0 < f.num) (hden : 0 < f.den) :
    (10 : ℚ) ^ f.log10 ≤ f.value := by
  have hnum' : (0 : ℚ) < f.num := by exact_mod_cast hnum
  have hden' : (0 : ℚ) < f.den := by exact_mod_cast hden
  unfold log10 value
  split
  · rename_i hle
    have hcount : 0 < digitCount (f.num / f.den) := Nat.length_toDigits_pos
    have hpow := ten_pow_le_of_digitCount (Nat.div_pos hle hden)
    have hmul := (Nat.mul_le_mul_right f.den hpow).trans (Nat.div_mul_le_self f.num f.den)
    have he : ((digitCount (f.num / f.den) : Int) - 1) = ((digitCount (f.num / f.den) - 1 : Nat) : Int) := by omega
    rw [he, zpow_natCast, le_div_iff₀ hden']
    exact_mod_cast hmul
  · rename_i hlt
    -- The quotient the other way round, rounded up, is one more than `k`.
    generalize hk : (f.den + f.num - 1) / f.num - 1 = k
    have hceil : f.den ≤ (k + 1) * f.num := by
      have h1 : 1 ≤ (f.den + f.num - 1) / f.num := (Nat.one_le_div_iff hnum).mpr (by omega)
      have h2 : f.den + f.num - 1 < f.num * ((f.den + f.num - 1) / f.num + 1) := Nat.lt_mul_div_succ _ hnum
      have h3 : (f.den + f.num - 1) / f.num = k + 1 := by omega
      rw [h3] at h2
      have h4 : f.num * (k + 1 + 1) = (k + 1) * f.num + f.num := by ring
      omega
    have hpow : k + 1 ≤ 10 ^ digitCount k := lt_ten_pow_digitCount k
    have hmul : f.den ≤ 10 ^ digitCount k * f.num := hceil.trans (Nat.mul_le_mul_right _ hpow)
    have hcast : (f.den : ℚ) ≤ 10 ^ digitCount k * f.num := by exact_mod_cast hmul
    rw [zpow_neg, zpow_natCast, inv_le_iff_one_le_mul₀ (by positivity), div_mul_eq_mul_div, one_le_div hden']
    linarith

/-! ## The nearest double -/

/-- The exponents that the reader multiplies out leave room on both sides of the doubles. -/
theorem two_pow_le_ten_pow : (2 : ℚ) ^ 1200 ≤ 10 ^ 400 := by
  rw [show 1200 = 3 * 400 from rfl, pow_mul]
  exact pow_le_pow_left₀ (by norm_num) (by norm_num) 400

theorem exponent_le_of_lt {bits : Nat} (h : bits < infinityBits) : (Magnitude.ofBits bits).exponent ≤ 971 := by
  unfold Magnitude.ofBits infinityBits at *
  simp only [Nat.pow_eq]
  split
  · simp
  · simp only
    omega

/-- What rounds to a finite magnitude that is not zero is neither too small nor too large for a double. -/
theorem bounds_of_draws {x : ℚ} {bits : Nat} (hbits : bits < infinityBits)
    (hpos : 0 < (Magnitude.ofBits bits).mantissa) (h : (Magnitude.ofBits bits).Draws x) :
    (2 : ℚ) ^ (-1075 : Int) ≤ x ∧ x < 2 ^ (1024 : Int) := by
  have hfinite := Magnitude.ofBits_isFinite bits
  have hexp := exponent_le_of_lt hbits
  have hpow : (0 : ℚ) < 2 ^ (Magnitude.ofBits bits).exponent := zpow_pos (by norm_num) _
  have hmantissa : (1 : ℚ) ≤ (Magnitude.ofBits bits).mantissa := by exact_mod_cast hpos
  have hmantissa' : ((Magnitude.ofBits bits).mantissa : ℚ) + 1 ≤ 2 ^ 53 := by exact_mod_cast hfinite.bound
  constructor
  · have h₁ : (1 / 2 : ℚ) ≤ x / 2 ^ (Magnitude.ofBits bits).exponent := by linarith [h.rounds.low]
    rw [le_div_iff₀ hpow] at h₁
    have h₂ : (2 : ℚ) ^ (-1074 : Int) ≤ 2 ^ (Magnitude.ofBits bits).exponent :=
      zpow_le_zpow_right₀ (by norm_num) hfinite.exponent
    have h₃ : (2 : ℚ) ^ (-1075 : Int) = 1 / 2 * 2 ^ (-1074 : Int) := by
      rw [show (-1075 : Int) = -1074 - 1 by norm_num, zpow_sub_one₀ (by norm_num)]
      ring
    linarith
  · have h₁ : x / 2 ^ (Magnitude.ofBits bits).exponent < 2 ^ 53 := by linarith [h.rounds.high]
    rw [div_lt_iff₀ hpow] at h₁
    have h₂ : (2 : ℚ) ^ (Magnitude.ofBits bits).exponent ≤ 2 ^ (971 : Int) := zpow_le_zpow_right₀ (by norm_num) hexp
    have h₃ : (2 : ℚ) ^ (1024 : Int) = 2 ^ 53 * 2 ^ (971 : Int) := by
      rw [show (1024 : Int) = (53 : Nat) + 971 by norm_num, zpow_add₀ (by norm_num), zpow_natCast]
    rw [h₃]
    exact h₁.trans_le (mul_le_mul_of_nonneg_left h₂ (by positivity))

/-- Digits that are neither too small nor too large for a double begin no more than 400 places from the point. -/
theorem Scientific.places_of_bounds {s : Scientific} (hdigits : 0 < s.digits) (hlow : (2 : ℚ) ^ (-1075 : Int) ≤ s.value)
    (hhigh : s.value < 2 ^ (1024 : Int)) :
    -400 ≤ (digitCount s.digits : Int) + s.exponent ∧ (digitCount s.digits : Int) + s.exponent ≤ 400 := by
  obtain ⟨hten, hten'⟩ := Scientific.value_bounds hdigits
  constructor
  · by_contra hlt
    have h₁ : (10 : ℚ) ^ ((digitCount s.digits : Int) + s.exponent) ≤ 10 ^ (-400 : Int) :=
      zpow_le_zpow_right₀ (by norm_num) (by omega)
    have h₂ : (10 : ℚ) ^ (-400 : Int) ≤ 2 ^ (-1200 : Int) := by
      rw [zpow_neg, zpow_neg]
      exact inv_anti₀ (zpow_pos (by norm_num) _) two_pow_le_ten_pow
    have h₃ : (2 : ℚ) ^ (-1200 : Int) ≤ 2 ^ (-1075 : Int) := zpow_le_zpow_right₀ (by norm_num) (by norm_num)
    exact absurd (hlow.trans_lt hten') (not_lt.mpr (h₁.trans (h₂.trans h₃)))
  · by_contra hlt
    have h₁ : (10 : ℚ) ^ (400 : Int) ≤ 10 ^ ((digitCount s.digits : Int) + s.exponent - 1) :=
      zpow_le_zpow_right₀ (by norm_num) (by omega)
    have h₂ : (2 : ℚ) ^ (1024 : Int) ≤ 2 ^ (1200 : Int) := zpow_le_zpow_right₀ (by norm_num) (by norm_num)
    have h₃ : (2 : ℚ) ^ (1200 : Int) ≤ 10 ^ (400 : Int) := two_pow_le_ten_pow
    exact absurd (hten.trans_lt hhigh) (not_lt.mpr (h₂.trans (h₃.trans h₁)))

/-- Digits and an exponent that round to a finite magnitude are read as it. -/
theorem nearest_of_draws {s : Scientific} {bits : Nat} (hbits : bits < infinityBits)
    (hpos : 0 < (Magnitude.ofBits bits).mantissa) (h : (Magnitude.ofBits bits).Draws s.value) :
    nearest false s = floatOfBits false bits := by
  obtain ⟨hlow, hhigh⟩ := bounds_of_draws hbits hpos h
  have hdigits : 0 < s.digits := by
    by_contra hzero
    have : s.value = 0 := by simp [Scientific.value, Nat.eq_zero_of_not_pos hzero]
    rw [this] at hlow
    exact absurd hlow (not_le.mpr (zpow_pos (by norm_num) _))
  obtain ⟨hsmall, hlarge⟩ := Scientific.places_of_bounds hdigits hlow hhigh
  have hvalue : ((Fraction.mk s.digits 1).scale10 s.exponent).value = s.value := by
    rw [Fraction.scale10_value]
    simp [Fraction.value, Scientific.value]
  have hbits' : nearestBits ((Fraction.mk s.digits 1).scale10 s.exponent) = bits :=
    nearestBits_of_draws (Fraction.scale10_num hdigits _) (Fraction.scale10_den Nat.one_pos _) hbits (hvalue ▸ h)
  unfold nearest
  simp only [hdigits.ne', not_lt.mpr hsmall, not_lt.mpr hlarge, hbits', decide_false, Bool.or_false,
    Bool.false_eq_true, if_false]

/-! ## The grid of fewest digits -/

namespace Magnitude

/-- A quarter of the last place, in units of a grid. -/
def quarter (m : Magnitude) (unit : Int) : Fraction := (Magnitude.mk 1 (m.exponent - 2)).toFraction.scale10 (-unit)

/-- The last grid point that is not above the magnitude. -/
def below (m : Magnitude) (unit : Int) : Nat := m.interval.1 * (m.quarter unit).num / (m.quarter unit).den

/-- A grid point is in the interval around the magnitude. -/
def isInside (m : Magnitude) (unit : Int) (n : Nat) : Bool :=
  let low := m.interval.2.1 * (m.quarter unit).num
  let high := m.interval.2.2 * (m.quarter unit).num
  let x := n * (m.quarter unit).den
  if m.mantissa % 2 = 0 then low ≤ x && x ≤ high else low < x && x < high

theorem onGrid?_eq (m : Magnitude) (unit : Int) :
    m.onGrid? unit =
      match m.isInside unit (m.below unit), m.isInside unit (m.below unit + 1) with
      | true, true => some (roundDiv (m.interval.1 * (m.quarter unit).num) (m.quarter unit).den)
      | true, false => some (m.below unit)
      | false, true => some (m.below unit + 1)
      | false, false => none := rfl

theorem quarter_den (m : Magnitude) (unit : Int) : 0 < (m.quarter unit).den :=
  Fraction.scale10_den (toFraction_den _) _

theorem quarter_value (m : Magnitude) (unit : Int) :
    (m.quarter unit).value = 2 ^ (m.exponent - 2) / 10 ^ unit := by
  rw [quarter, Fraction.scale10_value, toFraction_value]
  simp [value, div_eq_mul_inv]

theorem quarter_pos (m : Magnitude) (unit : Int) : 0 < (m.quarter unit).value := by
  rw [quarter_value]
  exact div_pos (zpow_pos (by norm_num) _) (zpow_pos (by norm_num) _)

/-- Quarters of the last place that a grid point is long. -/
theorem scaled_eq (m : Magnitude) (unit : Int) (n : Nat) :
    4 * ((n * 10 ^ unit : ℚ) / 2 ^ m.exponent) * (m.quarter unit).value = n := by
  rw [quarter_value, zpow_sub₀ (by norm_num)]
  have h₁ : (0 : ℚ) < 2 ^ m.exponent := zpow_pos (by norm_num) _
  have h₂ : (0 : ℚ) < 10 ^ unit := zpow_pos (by norm_num) _
  field_simp
  ring

theorem num_eq (m : Magnitude) (unit : Int) :
    ((m.quarter unit).num : ℚ) = (m.quarter unit).value * (m.quarter unit).den := by
  have := m.quarter_den unit
  rw [Fraction.value, div_mul_cancel₀]
  exact_mod_cast this.ne'

section Bounds

variable (m : Magnitude) (unit : Int) (n k : Nat)

theorem scaled_le_iff : k * (m.quarter unit).num ≤ n * (m.quarter unit).den ↔ (k : ℚ) * (m.quarter unit).value ≤ n := by
  have hden : (0 : ℚ) < (m.quarter unit).den := by exact_mod_cast m.quarter_den unit
  rw [← Nat.cast_le (α := ℚ), Nat.cast_mul, Nat.cast_mul, num_eq, ← mul_assoc, mul_le_mul_iff_left₀ hden]

theorem scaled_ge_iff : n * (m.quarter unit).den ≤ k * (m.quarter unit).num ↔ (n : ℚ) ≤ k * (m.quarter unit).value := by
  have hden : (0 : ℚ) < (m.quarter unit).den := by exact_mod_cast m.quarter_den unit
  rw [← Nat.cast_le (α := ℚ), Nat.cast_mul, Nat.cast_mul, num_eq, ← mul_assoc, mul_le_mul_iff_left₀ hden]

/-- Bounds and grid points are compared in quarters of the last place. -/
theorem quarters_le_iff : k * (m.quarter unit).num ≤ n * (m.quarter unit).den ↔
    (k : ℚ) ≤ 4 * ((n * 10 ^ unit : ℚ) / 2 ^ m.exponent) := by
  rw [scaled_le_iff, iff_comm, ← mul_le_mul_iff_left₀ (m.quarter_pos unit), scaled_eq]

theorem le_quarters_iff : n * (m.quarter unit).den ≤ k * (m.quarter unit).num ↔
    4 * ((n * 10 ^ unit : ℚ) / 2 ^ m.exponent) ≤ k := by
  rw [scaled_ge_iff, iff_comm, ← mul_le_mul_iff_left₀ (m.quarter_pos unit), scaled_eq]

end Bounds

theorem interval_low {m : Magnitude} (hpos : 0 < m.mantissa) :
    (m.interval.2.1 : ℚ) = 4 * m.mantissa - (if m.IsLowest then 1 else 2) := by
  have hle : (if m.IsLowest then 1 else 2) ≤ 4 * m.mantissa := by split <;> omega
  have hlow : m.interval.2.1 = 4 * m.mantissa - (if m.IsLowest then 1 else 2) := by
    unfold interval IsLowest
    simp only [Bool.and_eq_true, decide_eq_true_eq]
    congr
  rw [hlow, Nat.cast_sub hle]
  push_cast
  rfl

/-- A grid point in the interval rounds to the magnitude. -/
theorem draws_of_isInside {m : Magnitude} (hpos : 0 < m.mantissa) {unit : Int} {n : Nat}
    (h : m.isInside unit n = true) : m.Draws (n * 10 ^ unit) := by
  have hlow := interval_low hpos
  have hhigh : (m.interval.2.2 : ℚ) = 4 * m.mantissa + 2 := by simp [interval]
  unfold isInside at h
  simp only at h
  split at h
  · rename_i heven
    simp only [Bool.and_eq_true, decide_eq_true_eq, quarters_le_iff, le_quarters_iff, hlow, hhigh] at h
    obtain ⟨h₁, h₂⟩ := h
    refine ⟨⟨?_, by linarith, fun hodd => by omega⟩, fun hl => ?_⟩
    · split at h₁ <;> linarith
    · rw [if_pos hl] at h₁
      linarith
  · simp only [Bool.and_eq_true, decide_eq_true_eq, ← not_le, quarters_le_iff, le_quarters_iff] at h
    simp only [not_le, hlow, hhigh] at h
    obtain ⟨h₁, h₂⟩ := h
    refine ⟨⟨?_, by linarith, fun _ => ⟨?_, by linarith⟩⟩, fun hl => ?_⟩
    · split at h₁ <;> linarith
    · split at h₁ <;> linarith
    · rw [if_pos hl] at h₁
      linarith

/-- A grid that is no wider than a quarter of the last place has a point in the interval. -/
theorem isInside_below {m : Magnitude} (hpos : 0 < m.mantissa) {unit : Int}
    (h : (10 : ℚ) ^ unit ≤ 2 ^ (m.exponent - 2)) : m.isInside unit (m.below unit) = true := by
  have hlow := interval_low hpos
  have hmid : (m.interval.1 : ℚ) = 4 * m.mantissa := by simp [interval]
  have hhigh : (m.interval.2.2 : ℚ) = 4 * m.mantissa + 2 := by simp [interval]
  have hquarter : 1 ≤ (m.quarter unit).value := by
    rw [quarter_value, one_le_div (zpow_pos (by norm_num) _)]
    exact h
  have hfloor : (m.below unit : ℚ) ≤ m.interval.1 * (m.quarter unit).value :=
    (scaled_ge_iff m unit _ _).mp (Nat.div_mul_le_self _ _)
  have hceil : m.interval.1 * (m.quarter unit).value < m.below unit + 1 := by
    have hlt : m.interval.1 * (m.quarter unit).num < (m.below unit + 1) * (m.quarter unit).den := by
      rw [Nat.mul_comm (m.below unit + 1)]
      exact Nat.lt_mul_div_succ _ (m.quarter_den unit)
    rw [← not_le, scaled_ge_iff, not_le] at hlt
    exact_mod_cast hlt
  rw [hmid] at hfloor hceil
  have h₁ : (m.interval.2.1 : ℚ) * (m.quarter unit).value < m.below unit := by
    rw [hlow]
    split <;> linarith
  have h₂ : (m.below unit : ℚ) < m.interval.2.2 * (m.quarter unit).value := by
    rw [hhigh]
    linarith
  unfold isInside
  simp only
  split
  · simp only [Bool.and_eq_true, decide_eq_true_eq, scaled_le_iff, scaled_ge_iff]
    exact ⟨h₁.le, h₂.le⟩
  · simp only [Bool.and_eq_true, decide_eq_true_eq, ← not_le, scaled_le_iff, scaled_ge_iff]
    exact ⟨not_le.mpr h₁, not_le.mpr h₂⟩

theorem roundDiv_cases (num den : Nat) : roundDiv num den = num / den ∨ roundDiv num den = num / den + 1 := by
  unfold roundDiv
  simp only
  split
  · exact .inl rfl
  · exact .inr rfl

/-- What is found on a grid rounds to the magnitude. -/
theorem draws_of_onGrid? {m : Magnitude} (hpos : 0 < m.mantissa) {unit : Int} {n : Nat}
    (h : m.onGrid? unit = some n) : m.Draws (n * 10 ^ unit) := by
  refine draws_of_isInside hpos ?_
  rw [onGrid?_eq] at h
  split at h
  · rename_i hbelow habove
    obtain rfl := Option.some.inj h
    rcases roundDiv_cases (m.interval.1 * (m.quarter unit).num) (m.quarter unit).den with heq | heq
    · rw [heq]
      exact hbelow
    · rw [heq]
      exact habove
  · rename_i hbelow _
    obtain rfl := Option.some.inj h
    exact hbelow
  · rename_i _ habove
    obtain rfl := Option.some.inj h
    exact habove
  · cases h

/-- The digits of the first grid with a point in the interval round to the magnitude. -/
theorem draws_shortestFrom {m : Magnitude} (hpos : 0 < m.mantissa) {unit : Int} {count k : Nat} (hk : k < count)
    (h : (10 : ℚ) ^ (unit - k) ≤ 2 ^ (m.exponent - 2)) : m.Draws (m.shortestFrom unit count).value := by
  induction count generalizing unit k with
  | zero => cases hk
  | succ count ih =>
    unfold shortestFrom
    split
    · rename_i digits hgrid
      exact draws_of_onGrid? hpos hgrid
    · rename_i hgrid
      cases k with
      | zero =>
        rw [Nat.cast_zero, sub_zero] at h
        rw [onGrid?_eq, isInside_below hpos h] at hgrid
        split at hgrid <;> simp_all
      | succ k =>
        refine ih (Nat.lt_of_succ_lt_succ hk) ?_
        rwa [sub_sub, add_comm, ← Nat.cast_succ]

/-- Seventeen digits are enough. -/
theorem draws_shortest {m : Magnitude} (hpos : 0 < m.mantissa) (hbound : m.mantissa < 2 ^ 53) :
    m.Draws m.shortest.value := by
  refine draws_shortestFrom hpos (show 18 < 19 by norm_num) ?_
  have hnum : 0 < m.toFraction.num := by
    unfold toFraction
    split
    · exact Nat.mul_pos hpos (Nat.two_pow_pos _)
    · exact hpos
  have hlog := Fraction.ten_zpow_log10_le hnum m.toFraction_den
  have hpow : (0 : ℚ) < 2 ^ m.exponent := zpow_pos (by norm_num) _
  have hmantissa : (m.mantissa : ℚ) < 2 ^ 53 := by exact_mod_cast hbound
  rw [toFraction_value, value] at hlog
  have hle := hlog.trans (mul_le_mul_of_nonneg_right hmantissa.le hpow.le)
  calc (10 : ℚ) ^ (m.toFraction.log10 + 1 - (18 : Nat))
      = 10 ^ m.toFraction.log10 / 10 ^ 17 := by
        rw [show m.toFraction.log10 + 1 - ((18 : Nat) : Int) = m.toFraction.log10 - (17 : Nat) by push_cast; ring,
          zpow_sub₀ (by norm_num), zpow_natCast]
    _ ≤ 2 ^ 53 * 2 ^ m.exponent / 10 ^ 17 := div_le_div_of_nonneg_right hle (by positivity)
    _ ≤ 2 ^ m.exponent / 4 := by
        rw [div_le_div_iff₀ (by positivity) (by norm_num)]
        nlinarith
    _ = 2 ^ (m.exponent - 2) := by
        rw [zpow_sub₀ (by norm_num)]
        norm_num

end Magnitude

/-! ## Texts -/

theorem ofDigits_map_plainValue (cs : List Char) : ofDigits (cs.map plainValue) = Nat.ofDigitChars 10 cs 0 := by
  rw [ofDigits, List.foldl_map]
  rfl

theorem isPlainDigit_of_mem_digitChars {n : Nat} {c : Char} (h : c ∈ digitChars n) : isPlainDigit c = true := by
  have hdigit := Nat.isDigit_of_mem_toDigits (by norm_num) (Nat.le_refl 10) h
  simpa [Char.isDigit, isPlainDigit, Char.le_def] using hdigit

theorem isPlainDigit_of_mem_zeros {n : Nat} {c : Char} (h : c ∈ List.replicate n '0') : isPlainDigit c = true := by
  rw [(List.mem_replicate.mp h).2]
  rfl

/-- Plain decimals that stand for a rational. -/
structure Denotes (text : List Char) (x : ℚ) (whole fraction : List Char) : Prop where
  spelled : text = plainText whole fraction
  nonempty : whole ≠ []
  wholeDigits : ∀ c ∈ whole, isPlainDigit c = true
  fractionDigits : ∀ c ∈ fraction, isPlainDigit c = true
  value : (Scientific.mk (Nat.ofDigitChars 10 (whole ++ fraction) 0) (-fraction.length)).value = x

theorem Denotes.nearest {text : List Char} {x : ℚ} {whole fraction : List Char} (h : Denotes text x whole fraction) :
    ∃ s : Scientific, s.value = x ∧ read? (String.ofList text) = some (nearest false s) := by
  refine ⟨_, h.value, ?_⟩
  rw [h.spelled, read?_plain h.nonempty h.wholeDigits h.fractionDigits, ofDigits_map_plainValue]

theorem denotes_digitChars (n : Nat) : Denotes (digitChars n) n (digitChars n) [] where
  spelled := rfl
  nonempty := Nat.toDigits_ne_nil
  wholeDigits _ h := isPlainDigit_of_mem_digitChars h
  fractionDigits := by simp
  value := by
    rw [List.append_nil, digitChars, Nat.ofDigitChars_ten_toDigits]
    simp [Scientific.value]

/-- Digits with the decimal point in its place. -/
theorem denotes_positional (s : Scientific) :
    ∃ whole fraction, Denotes (positional (digitChars s.digits) s.point) s.value whole fraction := by
  have hdigits : Nat.ofDigitChars 10 (digitChars s.digits) 0 = s.digits := Nat.ofDigitChars_ten_toDigits
  have hlength : (digitChars s.digits).length = digitCount s.digits := rfl
  have hpoint : s.point = digitCount s.digits + s.exponent := rfl
  unfold positional
  split
  · refine ⟨['0'], List.replicate (-s.point).toNat '0' ++ digitChars s.digits, ?_, by simp, ?_, fun c hc => ?_, ?_⟩
    · simp [plainText, digitChars]
    · simp [isPlainDigit]
    · rcases List.mem_append.mp hc with hc | hc
      · exact isPlainDigit_of_mem_zeros hc
      · exact isPlainDigit_of_mem_digitChars hc
    · rw [Nat.ofDigitChars_append, Nat.ofDigitChars_append, Nat.ofDigitChars_replicate_zero,
        show Nat.ofDigitChars 10 ['0'] 0 = 0 from rfl, Nat.mul_zero, hdigits, List.length_append, List.length_replicate,
        hlength, show -(((-s.point).toNat + digitCount s.digits : Nat) : Int) = s.exponent by omega]
  · split
    · refine ⟨digitChars s.digits ++ List.replicate (s.point.toNat - (digitChars s.digits).length) '0', [],
        rfl, by simp [digitChars], fun c hc => ?_, by simp, ?_⟩
      · rcases List.mem_append.mp hc with hc | hc
        · exact isPlainDigit_of_mem_digitChars hc
        · exact isPlainDigit_of_mem_zeros hc
      · obtain ⟨k, hk⟩ := Int.eq_ofNat_of_zero_le (show 0 ≤ s.exponent by omega)
        rw [List.append_nil, Nat.ofDigitChars_append, hdigits, Nat.ofDigitChars_replicate_zero, hlength,
          show s.point.toNat - digitCount s.digits = k by omega, Scientific.value, Scientific.value, hk]
        simp [mul_comm]
    · refine ⟨(digitChars s.digits).take s.point.toNat, (digitChars s.digits).drop s.point.toNat, ?_, ?_,
        fun c hc => isPlainDigit_of_mem_digitChars (List.mem_of_mem_take hc),
        fun c hc => isPlainDigit_of_mem_digitChars (List.mem_of_mem_drop hc), ?_⟩
      · rw [plainText, if_neg]
        rw [List.isEmpty_iff, List.drop_eq_nil_iff]
        omega
      · rw [ne_eq, List.take_eq_nil_iff]
        have hne : digitChars s.digits ≠ [] := Nat.toDigits_ne_nil
        simp only [hne, or_false]
        omega
      · rw [List.take_append_drop, hdigits, List.length_drop, hlength,
          show -((digitCount s.digits - s.point.toNat : Nat) : Int) = s.exponent by omega]

/-! ## Numerals -/

theorem Magnitude.toNat?_value {m : Magnitude} {n : Nat} (h : m.toNat? = some n) : (n : ℚ) = m.value := by
  unfold toNat? at h
  simp only at h
  split at h
  · rename_i hmod
    obtain rfl := Option.some.inj h
    have hden : ((m.toFraction.den : Nat) : ℚ) ≠ 0 := by exact_mod_cast m.toFraction_den.ne'
    rw [← m.toFraction_value, Fraction.value, Nat.cast_div (Nat.dvd_of_mod_eq_zero hmod) hden]
  · cases h

theorem Magnitude.draws_value {m : Magnitude} : m.Draws m.value := by
  have hpow : (2 : ℚ) ^ m.exponent ≠ 0 := zpow_ne_zero _ (by norm_num)
  have hvalue : m.value / 2 ^ m.exponent = m.mantissa := mul_div_cancel_right₀ _ hpow
  refine ⟨⟨?_, ?_, fun _ => ⟨?_, ?_⟩⟩, fun _ => ?_⟩ <;> rw [hvalue] <;> linarith

/-- The text of a magnitude is in plain decimals and stands for a rational that rounds to it, for the magnitude
itself if that is zero. -/
theorem Magnitude.denotes_numeral {m : Magnitude} (hbound : m.mantissa < 2 ^ 53) :
    ∃ x whole fraction, Denotes m.numeral x whole fraction ∧ m.Draws x ∧ (m.mantissa = 0 → x = 0) := by
  unfold numeral
  split
  · rename_i n hn
    refine ⟨n, _, _, denotes_digitChars n, toNat?_value hn ▸ draws_value, fun h => ?_⟩
    rw [toNat?_value hn, value, h]
    simp
  · rename_i hn
    have hpos : 0 < m.mantissa := by
      by_contra hzero
      have : m.toFraction.num = 0 := by
        unfold toFraction
        split <;> simp [Nat.eq_zero_of_not_pos hzero]
      simp [toNat?, this] at hn
    obtain ⟨whole, fraction, hden⟩ := denotes_positional m.shortest
    exact ⟨_, whole, fraction, hden, draws_shortest hpos hbound, fun h => absurd h hpos.ne'⟩

theorem nearest_of_value_zero {s : Scientific} (h : s.value = 0) : nearest false s = floatOfBits false 0 := by
  have hpow : (10 : ℚ) ^ s.exponent ≠ 0 := zpow_ne_zero _ (by norm_num)
  have hdigits : s.digits = 0 := by
    have := (mul_eq_zero.mp h).resolve_right hpow
    exact_mod_cast this
  simp [nearest, hdigits]

/-- The text of a finite magnitude is in plain decimals and is read as the double with its pattern. -/
theorem numeral_nearest {bits : Nat} (hbits : bits < infinityBits) :
    ∃ whole fraction, (Magnitude.ofBits bits).numeral = plainText whole fraction ∧ whole ≠ [] ∧
      (∀ c ∈ whole, isPlainDigit c = true) ∧ (∀ c ∈ fraction, isPlainDigit c = true) ∧
      read? (String.ofList (Magnitude.ofBits bits).numeral) = some (floatOfBits false bits) := by
  have hfinite := Magnitude.ofBits_isFinite bits
  obtain ⟨x, whole, fraction, hden, hdraws, hzero⟩ := Magnitude.denotes_numeral hfinite.bound
  obtain ⟨s, rfl, hread⟩ := hden.nearest
  refine ⟨whole, fraction, hden.spelled, hden.nonempty, hden.wholeDigits, hden.fractionDigits, ?_⟩
  rw [hread]
  by_cases hpos : 0 < (Magnitude.ofBits bits).mantissa
  · rw [nearest_of_draws hbits hpos hdraws]
  · have hmantissa := Nat.eq_zero_of_not_pos hpos
    have hexponent := hfinite.normal.resolve_right (by omega)
    have heq := Magnitude.bits_eq bits
    rw [hmantissa, hexponent] at heq
    obtain rfl : 0 = bits := heq
    rw [nearest_of_value_zero (hzero hmantissa)]

end TillLang.Decimal
