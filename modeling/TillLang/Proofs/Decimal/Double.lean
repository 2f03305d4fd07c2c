/-
  TillLang.Proofs.Decimal.Double — doubles and their patterns.

  A double is the same as its pattern, as far as the finite ones go: the double made from a
  pattern has that pattern, and the double made from the pattern of a double is that double.
  What a finite double denotes says how it compares with zero and with itself.
-/

import Mathlib
import TillLang.Proofs.Decimal.Numeral
import TillLang.Syntax.Printer

namespace TillLang.Decimal

open Float.Model (UnpackedFloat Format)
open Float.Model.UnpackedFloat

/-! ## The parts of a pattern -/

/-- The sign of a pattern. -/
def signOf (b : BitVec 64) : Sign := if signBits ≤ b.toNat then .negative else .positive

section Pattern

variable (b : BitVec Format.binary64.numBits)

theorem toNat_unpackMantissa : (unpackMantissa b).toNat = b.toNat % 2 ^ 52 := by
  simp [unpackMantissa, BitVec.extractLsb]

theorem toNat_unpackExponent : (unpackExponent b).toNat = b.toNat / 2 ^ 52 % 2 ^ 11 := by
  simp [unpackExponent, BitVec.extractLsb, Nat.shiftRight_eq_div_pow]

theorem ofBitVec_unpackSign : Sign.ofBitVec (unpackSign b) = signOf b := by
  have hb : b.toNat < 2 ^ 64 := b.isLt
  have hsign : (unpackSign b).toNat = b.toNat / 2 ^ 63 := by
    simp only [unpackSign, BitVec.extractLsb, BitVec.toNat_cast, BitVec.extractLsb'_toNat, Nat.shiftRight_eq_div_pow]
    omega
  have hzero : unpackSign b = 0#1 ↔ b.toNat / 2 ^ 63 = 0 := by
    rw [← BitVec.toNat_inj, hsign]
    rfl
  unfold Sign.ofBitVec signOf signBits
  by_cases h : b.toNat / 2 ^ 63 = 0
  · rw [if_pos (hzero.mpr h), if_neg (by omega)]
  · rw [if_neg (h ∘ hzero.mp), if_pos (by omega)]

variable {b}

theorem unpackExponent_ne (h : b.toNat % signBits < infinityBits) : unpackExponent b ≠ -1#_ := by
  intro heq
  have hb : b.toNat < 2 ^ 64 := b.isLt
  have hexponent := congrArg BitVec.toNat heq
  rw [toNat_unpackExponent] at hexponent
  unfold signBits infinityBits at h
  simp at hexponent
  omega

theorem unpackMantissa_pos (h : unpackMantissa b ≠ 0#_) : 0 < (unpackMantissa b).toNat :=
  Nat.pos_of_ne_zero fun hzero => h (BitVec.toNat_inj.mp hzero)

/-- The mantissa of a normal pattern. -/
theorem toNat_one_append : (1#1 ++ unpackMantissa b).toNat = 2 ^ 52 + (unpackMantissa b).toNat := by
  have hmantissa : (unpackMantissa b).toNat < 2 ^ 52 := (unpackMantissa b).isLt
  rw [BitVec.toNat_append, ← Nat.shiftLeft_add_eq_or_of_lt hmantissa]
  rfl

theorem unpackExponent_pos (h : unpackExponent b ≠ 0#_) : 0 < (unpackExponent b).toNat :=
  Nat.pos_of_ne_zero fun hzero => h (BitVec.toNat_inj.mp hzero)

/-- What a finite pattern stands for. -/
theorem unpack_of_finite (h : b.toNat % signBits < infinityBits) :
    b.toNat % signBits = 0 ∧ unpack .binary64 b = .zero (signOf b) ∨
      b.toNat % signBits ≠ 0 ∧ ∃ m e hm, unpack .binary64 b = .finite (signOf b) m e hm := by
  have hb : b.toNat < 2 ^ 64 := b.isLt
  have hmantissa := toNat_unpackMantissa b
  have hexponent := toNat_unpackExponent b
  rw [unpack]
  simp only [ofBitVec_unpackSign]
  rw [if_neg (unpackExponent_ne h)]
  unfold signBits infinityBits at *
  by_cases hexp : unpackExponent b = 0#_
  · rw [if_pos hexp]
    by_cases hzero : unpackMantissa b = 0#_
    · rw [dif_pos hzero]
      rw [hzero] at hmantissa
      rw [hexp] at hexponent
      simp at hmantissa hexponent
      exact .inl ⟨by omega, rfl⟩
    · rw [dif_neg hzero]
      have hpos := unpackMantissa_pos hzero
      exact .inr ⟨by omega, _, _, hpos, rfl⟩
  · rw [if_neg hexp]
    have hpos := unpackExponent_pos hexp
    exact .inr ⟨by omega, _, _, by rw [toNat_one_append]; omega, rfl⟩

/-- A finite pattern is the pattern of what it stands for. -/
theorem pack_unpack_of_finite (h : b.toNat % signBits < infinityBits) :
    pack .binary64 (unpack .binary64 b) = b := by
  have hnumber : isNaNBits b = false := by
    rw [isNaNBits, decide_eq_false_iff_not]
    exact fun hnan => unpackExponent_ne h hnan.1
  rw [pack_unpack, hnumber]
  rfl

end Pattern

/-! ## Doubles -/

/-- A double is a number, not infinity and not the result of an operation without a result. -/
def IsFinite (x : Float) : Prop := ∃ negative m, Quantity.ofFloat x = .finite negative m

theorem isFinite_iff {x : Float} : IsFinite x ↔ x.toBits.toNat % signBits < infinityBits := by
  unfold IsFinite Quantity.ofFloat Quantity.ofBits
  simp only
  by_cases h : x.toBits.toNat % signBits < infinityBits
  · simp [h]
  · rw [if_neg h]
    split <;> simp [h]

theorem toBits_ofBits {n : UInt64} (h : n.toNat % signBits < infinityBits) : (Float.ofBits n).toBits = n :=
  congrArg UInt64.ofBitVec (pack_unpack_of_finite h)

theorem beq_self_of_isFinite {x : Float} (h : IsFinite x) : (x == x) = true := by
  refine Float.beq_self_iff.mpr ?_
  rintro rfl
  rw [isFinite_iff] at h
  exact absurd h (by decide)

/-- A finite double is written with a sign exactly if it is below zero. -/
theorem isNegative_iff {x : Float} (h : IsFinite x) : Syntax.isNegative x = true ↔ signBits < x.toBits.toNat := by
  have hb : x.toBits.toNat < 2 ^ 64 := x.toBits.toNat_lt
  have hlt : Syntax.isNegative x =
      (UnpackedFloat.compare (unpack .binary64 x.toBits.toBitVec) (.zero .positive) == some .lt) := by
    rw [Syntax.isNegative, Bool.eq_iff_iff, decide_eq_true_iff]
    change decide _ = true ↔ _
    rw [decide_eq_true_iff]
    exact Iff.rfl
  rw [hlt]
  rcases unpack_of_finite (isFinite_iff.mp h) with ⟨hzero, heq⟩ | ⟨hne, m, e, hm, heq⟩
  · rw [heq]
    change x.toBits.toNat % signBits = 0 at hzero
    unfold signBits at *
    simp [UnpackedFloat.compare]
    omega
  · rw [heq]
    change x.toBits.toNat % signBits ≠ 0 at hne
    unfold signOf
    change ((UnpackedFloat.compare (.finite (if signBits ≤ x.toBits.toNat then .negative else .positive) m e hm)
      (.zero .positive)) == some .lt) = true ↔ _
    unfold signBits at *
    split
    · simp [UnpackedFloat.compare]
      omega
    · simp [UnpackedFloat.compare]
      omega

theorem toNat_toBits_floatOfBits {bits : Nat} (h : bits < infinityBits) :
    (floatOfBits false bits).toBits.toNat = bits := by
  have hlt : bits < 2 ^ 64 := h.trans (by decide)
  have hnat : (UInt64.ofNat bits).toNat = bits := UInt64.toNat_ofNat_of_lt hlt
  have hmod : bits % signBits = bits := Nat.mod_eq_of_lt (h.trans (by decide))
  rw [floatOfBits, if_neg (by decide), toBits_ofBits (by rw [hnat, hmod]; exact h), hnat]

theorem isFinite_floatOfBits {bits : Nat} (h : bits < infinityBits) : IsFinite (floatOfBits false bits) := by
  rw [isFinite_iff, toNat_toBits_floatOfBits h, Nat.mod_eq_of_lt (h.trans (by decide))]
  exact h

theorem not_isFinite_infinity : ¬ IsFinite (floatOfBits false infinityBits) := by
  rw [isFinite_iff]
  decide

theorem isNegative_floatOfBits {bits : Nat} (h : bits < infinityBits) :
    Syntax.isNegative (floatOfBits false bits) = false := by
  rw [Bool.eq_false_iff, ne_eq, isNegative_iff (isFinite_floatOfBits h), toNat_toBits_floatOfBits h]
  have : infinityBits < signBits := by decide
  omega

/-- A finite double that is not below zero is the double of its pattern, or the zero with a sign. -/
theorem floatOfBits_of_nonneg {x : Float} (h : IsFinite x) (hneg : Syntax.isNegative x = false) :
    (∃ bits, bits < infinityBits ∧ x = floatOfBits false bits) ∨ x = floatOfBits true 0 := by
  have hle : ¬ signBits < x.toBits.toNat := by
    rw [← isNegative_iff h, hneg]
    exact Bool.false_ne_true
  have hofNat : UInt64.ofNat x.toBits.toNat = x.toBits := UInt64.ofNat_toNat
  by_cases hsign : x.toBits.toNat = signBits
  · refine .inr ?_
    rw [← Float.ofBits_toBits x, ← hofNat, hsign]
    rfl
  · refine .inl ⟨x.toBits.toNat, ?_, ?_⟩
    · have := isFinite_iff.mp h
      rwa [Nat.mod_eq_of_lt (by omega)] at this
    · rw [floatOfBits, if_neg (by decide), hofNat, Float.ofBits_toBits]

/-! ## Numerals -/

theorem numeral_floatOfBits {bits : Nat} (h : bits < infinityBits) :
    numeral (floatOfBits false bits) = String.ofList (Magnitude.ofBits bits).numeral := by
  have hsign : ¬ signBits ≤ bits := by
    have : infinityBits < signBits := by decide
    omega
  rw [numeral, Quantity.ofFloat, toNat_toBits_floatOfBits h, Quantity.ofBits]
  simp [Nat.mod_eq_of_lt (Nat.not_le.mp hsign), h, hsign, Quantity.numeral, signed]

/-- The zero with a sign is written without it. -/
theorem numeral_negativeZero : numeral (floatOfBits true 0) = numeral (floatOfBits false 0) :=
  rfl

/-- A number that is not below zero is written in plain decimals, and it is read as itself, the zero with a sign
as the zero without. -/
theorem read?_numeral {x : Float} (h : IsFinite x) (hneg : Syntax.isNegative x = false) :
    ∃ whole fraction bits, (numeral x).toList = plainText whole fraction ∧ whole ≠ [] ∧
      (∀ c ∈ whole, isPlainDigit c = true) ∧ (∀ c ∈ fraction, isPlainDigit c = true) ∧
      read? (numeral x) = some (floatOfBits false bits) ∧
      (x = floatOfBits false bits ∨ x = floatOfBits true 0 ∧ bits = 0) := by
  rcases floatOfBits_of_nonneg h hneg with ⟨bits, hbits, rfl⟩ | rfl
  · obtain ⟨whole, fraction, htext, hne, hw, hf, hread⟩ := numeral_nearest hbits
    refine ⟨whole, fraction, bits, ?_, hne, hw, hf, ?_, .inl rfl⟩
    · rw [numeral_floatOfBits hbits, String.toList_ofList, htext]
    · rw [numeral_floatOfBits hbits, hread]
  · have hzero : 0 < infinityBits := by decide
    obtain ⟨whole, fraction, htext, hne, hw, hf, hread⟩ := numeral_nearest hzero
    refine ⟨whole, fraction, 0, ?_, hne, hw, hf, ?_, .inr ⟨rfl, rfl⟩⟩
    · rw [numeral_negativeZero, numeral_floatOfBits hzero, String.toList_ofList, htext]
    · rw [numeral_negativeZero, numeral_floatOfBits hzero, hread]

end TillLang.Decimal
