/-
  TillLang.Proofs.Print.Number — the text of a number is exact, and one token.

  The text of a double that is not below zero is digits, or digits and a point between them; so the lexer takes all
  of it for one number. What the text denotes is the double itself if that is an integer, however many digits it has.
  Any other double is written with the shortest digits, which the logs put into scientific notation if the double is
  very small or very large. Both texts denote the same rational then, and without an exponent they are the same
  text (`numeral_exact`).

  Both texts are made of the same digits and a place for the point, and each is shown to denote those digits scaled
  by that place (`denotes_positional`, `denoted?_exponential`).
-/

import TillLang.Proofs.Token.Written

namespace TillLang.Decimal

/-! ## What texts and doubles denote -/

/-- The rational that a number written without a sign denotes, with or without an exponent. -/
def denoted? (text : List Char) : Option ℚ := (readScientific? text).map Scientific.value

/-- The rational that a double is, if it is finite. -/
def Quantity.value? : Quantity → Option ℚ
  | .finite negative m => some (if negative then -m.value else m.value)
  | .infinite _ | .undefined => none

theorem Denotes.denoted {text : List Char} {x : ℚ} {whole fraction : List Char} (h : Denotes text x whole fraction) :
    denoted? text = some x := by
  rw [denoted?, h.spelled, readScientific?_plain h.nonempty h.wholeDigits h.fractionDigits, ofDigits_map_plainValue,
    Option.map_some, h.value]

/-! ## Exponents -/

/-- The digits of an exponent, at least two. -/
def exponentDigits (n : Nat) : List Char := if (digitChars n).length < 2 then '0' :: digitChars n else digitChars n

theorem exponentText_eq (e : Int) :
    exponentText e = 'e' :: (if e < 0 then '-' else '+') :: exponentDigits e.natAbs := rfl

theorem isPlainDigit_of_mem_exponentDigits {n : Nat} {c : Char} (h : c ∈ exponentDigits n) : isPlainDigit c = true := by
  unfold exponentDigits at h
  split at h
  · rcases List.mem_cons.mp h with rfl | h
    · rfl
    · exact isPlainDigit_of_mem_digitChars h
  · exact isPlainDigit_of_mem_digitChars h

theorem exponentDigits_ne_nil (n : Nat) : exponentDigits n ≠ [] := by
  unfold exponentDigits
  split
  · simp
  · exact Nat.toDigits_ne_nil

/-- A zero in front of a single digit does not count. -/
theorem ofDigitChars_exponentDigits (n : Nat) : Nat.ofDigitChars 10 (exponentDigits n) 0 = n := by
  have hplain : Nat.ofDigitChars 10 (digitChars n) 0 = n := Nat.ofDigitChars_ten_toDigits
  unfold exponentDigits
  split <;> exact hplain

/-- An exponent is read as itself. -/
theorem readExponent?_exponentText (e : Int) : readExponent? (exponentText e) = some e := by
  have hempty : (exponentDigits e.natAbs).isEmpty = false := by simpa using exponentDigits_ne_nil e.natAbs
  have hall : (exponentDigits e.natAbs).all isPlainDigit = true :=
    List.all_eq_true.mpr fun c h => isPlainDigit_of_mem_exponentDigits h
  rw [exponentText_eq]
  by_cases hneg : e < 0
  · simp only [if_pos hneg, readExponent?, takeSign, hempty, hall, ofDigits_map_plainValue, ofDigitChars_exponentDigits]
    simp [abs_of_neg hneg]
  · simp only [if_neg hneg, readExponent?, takeSign, hempty, hall, ofDigits_map_plainValue, ofDigitChars_exponentDigits]
    simp
    omega

/-- Plain decimals with an exponent behind them. -/
theorem readScientific?_exponent {whole fraction : List Char} (hne : whole ≠ [])
    (hw : ∀ c ∈ whole, isPlainDigit c = true) (hf : ∀ c ∈ fraction, isPlainDigit c = true) (e : Int) :
    readScientific? (plainText whole fraction ++ exponentText e) =
      some ⟨Nat.ofDigitChars 10 (whole ++ fraction) 0, e - fraction.length⟩ := by
  have hwhole : whole.isEmpty = false := by simpa using hne
  have hmark : ∀ c ∈ (exponentText e).head?, isPlainDigit c = false := by
    simp [exponentText]
    decide
  cases fraction with
  | nil =>
    obtain ⟨h1, h2⟩ := takeWhile_plain hw (exponentText e) hmark
    have hpoint : (exponentText e).head? = some 'e' := rfl
    unfold readScientific?
    simp only [plainText, List.isEmpty_nil, if_true, h1, h2]
    split
    · rename_i hrest
      rw [hrest] at hpoint
      cases hpoint
    · simp [hwhole, readExponent?_exponentText, ofDigits_map_plainValue]
  | cons d fraction =>
    have hdot : ∀ c ∈ ('.' :: (d :: fraction ++ exponentText e)).head?, isPlainDigit c = false := by simp; decide
    obtain ⟨h1, h2⟩ := takeWhile_plain hw _ hdot
    obtain ⟨h3, h4⟩ := takeWhile_plain hf _ hmark
    unfold readScientific?
    simp only [plainText, List.isEmpty_cons, Bool.false_eq_true, if_false, List.append_assoc, List.cons_append] at *
    simp only [h1, h2, h3, h4, hwhole, Bool.false_and, Bool.false_eq_true, if_false, readExponent?_exponentText,
      ofDigits_map_plainValue]
    rfl

/-- Digits with an exponent denote the digits, scaled by the place of the point. -/
theorem denoted?_exponential (s : Scientific) :
    denoted? (exponential (digitChars s.digits) s.point) = some s.value := by
  have hdigits : Nat.ofDigitChars 10 (digitChars s.digits) 0 = s.digits := Nat.ofDigitChars_ten_toDigits
  have hpoint : s.point = (digitChars s.digits).length + s.exponent := rfl
  have hplain : ∀ c ∈ digitChars s.digits, isPlainDigit c = true := fun c h => isPlainDigit_of_mem_digitChars h
  obtain ⟨d, rest, hcons⟩ := List.exists_cons_of_ne_nil (show digitChars s.digits ≠ [] from Nat.toDigits_ne_nil)
  have hsplit : exponential (digitChars s.digits) s.point = plainText [d] rest ++ exponentText (s.point - 1) := by
    rw [hcons]
    cases rest <;> rfl
  rw [hcons] at hdigits hpoint hplain
  obtain ⟨hd, hrest⟩ := List.forall_mem_cons.mp hplain
  rw [denoted?, hsplit, readScientific?_exponent (by simp) (by simpa using hd) hrest, Option.map_some, Scientific.value,
    Scientific.value, List.singleton_append, hdigits, show s.point - 1 - rest.length = s.exponent by
      rw [hpoint, List.length_cons]
      omega]

/-! ## Magnitudes -/

namespace Magnitude

variable {m : Magnitude}

theorem toNat?_iff {n : Nat} : m.toNat? = some n ↔ m.value = n := by
  refine ⟨fun h => (toNat?_value h).symm, fun h => ?_⟩
  have hden : ((m.toFraction.den : Nat) : ℚ) ≠ 0 := by exact_mod_cast m.toFraction_den.ne'
  have hnum : m.toFraction.num = n * m.toFraction.den := by
    rw [← m.toFraction_value, Fraction.value, div_eq_iff hden] at h
    exact_mod_cast h
  unfold toNat?
  simp [hnum, Nat.mul_div_cancel n m.toFraction_den]

/-- Digits without a fraction are an integer, so they round to no other magnitude than an integer. -/
theorem exponent_neg_of_draws {s : Scientific} (hdraws : m.Draws s.value) (h : m.toNat? = none) : s.exponent < 0 := by
  by_contra hexp
  obtain ⟨k, hk⟩ := Int.eq_ofNat_of_zero_le (not_lt.mp hexp)
  have hvalue : s.value = ((s.digits * 10 ^ k : Nat) : ℚ) := by
    rw [Scientific.value, hk]
    push_cast
    rfl
  have hneg : m.exponent < 0 := by
    by_contra hge
    obtain ⟨j, hj⟩ := Int.eq_ofNat_of_zero_le (not_lt.mp hge)
    have hint : m.value = ((m.mantissa * 2 ^ j : Nat) : ℚ) := by
      rw [value, hj]
      push_cast
      rfl
    rw [toNat?_iff.mpr hint] at h
    cases h
  obtain ⟨j, hj⟩ := Int.eq_ofNat_of_zero_le (show 0 ≤ -m.exponent by omega)
  -- in units of the last place of the magnitude the digits are an integer as well
  have hunits : s.value / 2 ^ m.exponent = ((s.digits * 10 ^ k * 2 ^ j : Nat) : ℚ) := by
    rw [hvalue, div_eq_mul_inv, ← zpow_neg, hj, zpow_natCast]
    push_cast
    rfl
  have hrounds := hdraws.rounds
  rw [hunits] at hrounds
  have hlow : 2 * m.mantissa ≤ 2 * (s.digits * 10 ^ k * 2 ^ j) + 1 := by exact_mod_cast hrounds.low
  have hhigh : 2 * (s.digits * 10 ^ k * 2 ^ j) ≤ 2 * m.mantissa + 1 := by exact_mod_cast hrounds.high
  have heq : m.mantissa = s.digits * 10 ^ k * 2 ^ j := by omega
  have hint : m.value = ((s.digits * 10 ^ k : Nat) : ℚ) := by
    rw [value, heq, show m.exponent = -(j : Int) by omega, zpow_neg, zpow_natCast, Nat.cast_mul (s.digits * 10 ^ k)]
    push_cast
    exact mul_inv_cancel_right₀ (by positivity) _
  rw [toNat?_iff.mpr hint] at h
  cases h

/-- The two texts of a magnitude that is no integer: without an exponent they are the same. -/
theorem numeral_of_fractional (hbound : m.mantissa < 2 ^ 53) (h : m.toNat? = none) :
    denoted? m.numeral = some m.shortest.value ∧ denoted? m.inspect = some m.shortest.value ∧
      ('e' ∉ m.inspect → m.inspect = m.numeral) := by
  have hpos : 0 < m.mantissa := by
    by_contra hzero
    have hvalue : m.value = ((0 : Nat) : ℚ) := by simp [value, Nat.eq_zero_of_not_pos hzero]
    rw [toNat?_iff.mpr hvalue] at h
    cases h
  have hnumeral : m.numeral = positional (digitChars m.shortest.digits) m.shortest.point := by simp only [numeral, h]
  obtain ⟨whole, fraction, hden⟩ := denotes_positional m.shortest
  refine ⟨by rw [hnumeral, hden.denoted], ?_⟩
  have hpoint : '.' ∈ positional (digitChars m.shortest.digits) m.shortest.point := by
    have hexp := exponent_neg_of_draws (draws_shortest hpos hbound) h
    have hcount : m.shortest.point = (digitChars m.shortest.digits).length + m.shortest.exponent := rfl
    unfold positional
    split
    · simp
    · rw [if_neg (by omega)]
      simp
  unfold inspect
  rw [if_neg hpos.ne']
  simp only
  split
  · refine ⟨denoted?_exponential _, fun hmark => absurd ?_ hmark⟩
    simp [exponential, exponentText]
  · rw [if_pos (by simpa using hpoint)]
    exact ⟨hden.denoted, fun _ => hnumeral.symm⟩

end Magnitude

/-! ## Doubles -/

/-- A finite double that is not below zero is written as its magnitude, in logs as well unless it is a zero. -/
theorem texts_of_nonneg {x : Float} {v : ℚ} (hx : (Quantity.ofFloat x).value? = some v) (hv : 0 ≤ v) :
    ∃ m : Magnitude, m.mantissa < 2 ^ 53 ∧ m.value = v ∧ (numeral x).toList = m.numeral ∧
      (m.mantissa ≠ 0 → (inspectNumber x).toList = m.inspect) := by
  unfold numeral inspectNumber
  simp only [String.toList_ofList]
  generalize hq : Quantity.ofFloat x = q at hx ⊢
  cases q with
  | infinite | undefined => cases hx
  | finite negative m =>
    have hbound : m.mantissa < 2 ^ 53 := by
      unfold Quantity.ofFloat Quantity.ofBits at hq
      simp only at hq
      split at hq
      · obtain ⟨-, rfl⟩ := Quantity.finite.inj hq
        exact (Magnitude.ofBits_isFinite _).bound
      · split at hq <;> cases hq
    have hvalue := Option.some.inj hx
    cases negative with
    | false => exact ⟨m, hbound, by simpa using hvalue, by simp [Quantity.numeral, signed], fun _ => rfl⟩
    | true =>
      -- only the zero has a sign here
      have hnonneg : 0 ≤ m.value := mul_nonneg (Nat.cast_nonneg _) (zpow_nonneg (by norm_num) _)
      have hzero : m.value = 0 := by
        simp only [if_true] at hvalue
        linarith
      have hmantissa : m.mantissa = 0 := by
        have := (mul_eq_zero.mp hzero).resolve_right (zpow_ne_zero _ (by norm_num))
        exact_mod_cast this
      refine ⟨m, hbound, ?_, by simp [Quantity.numeral, hmantissa, signed], fun hne => absurd hmantissa hne⟩
      simp only [if_true] at hvalue
      linarith

/-- A line of plain decimals is one number. -/
theorem scanLine_plainText {whole fraction : List Char} (hne : whole ≠ []) (hw : ∀ c ∈ whole, isPlainDigit c = true)
    (hf : ∀ c ∈ fraction, isPlainDigit c = true) (line offset column depth : Nat) :
    Token.scanLine line offset (plainText whole fraction) column depth =
      .ok ([⟨.number, String.ofList (plainText whole fraction), line, column, offset + column - 1⟩], depth) := by
  obtain ⟨c, body, htext, hc, htaken⟩ := Token.lexemeAt_plainText hne hw hf
  have hspace : c ≠ ' ' := of_isPlainDigit (P := fun c => c ≠ ' ') (by decide) hc
  have hlexeme := htaken [] (by simp [Token.Bounded])
  have hscan := Token.scanLine_lexeme hspace hlexeme line offset column depth
  rw [List.append_nil] at hscan
  rw [htext, hscan, Token.scanLine]
  rfl

/-- A finite double that is not below zero is written as digits, or as digits, a point and digits, and the lexer takes
that text for one number. An integer is what its text denotes. The text of any other double denotes what the shortest
text of the double denotes, which may have an exponent; if it has none, the texts are the same. -/
theorem numeral_exact {x : Float} {v : ℚ} (hx : (Quantity.ofFloat x).value? = some v) (hv : 0 ≤ v) :
    (∃ whole fraction, (numeral x).toList = plainText whole fraction ∧ whole ≠ [] ∧
      (∀ c ∈ whole, isPlainDigit c = true) ∧ ∀ c ∈ fraction, isPlainDigit c = true) ∧
    (∀ line offset column depth, Token.scanLine line offset (numeral x).toList column depth =
      .ok ([⟨.number, numeral x, line, column, offset + column - 1⟩], depth)) ∧
    ((∃ n : Int, v = n) → denoted? (numeral x).toList = some v) ∧
    ((¬ ∃ n : Int, v = n) → ∃ q, denoted? (inspectNumber x).toList = some q ∧ denoted? (numeral x).toList = some q ∧
      ('e' ∉ (inspectNumber x).toList → inspectNumber x = numeral x)) := by
  obtain ⟨m, hbound, rfl, htext, hinspect⟩ := texts_of_nonneg hx hv
  obtain ⟨y, whole, fraction, hden, -, -⟩ := m.denotes_numeral hbound
  refine ⟨⟨whole, fraction, ?_, hden.nonempty, hden.wholeDigits, hden.fractionDigits⟩, ?_, ?_, ?_⟩
  · rw [htext, hden.spelled]
  · intro line offset column depth
    have hscan := scanLine_plainText hden.nonempty hden.wholeDigits hden.fractionDigits line offset column depth
    rwa [← hden.spelled, ← htext, String.ofList_toList] at hscan
  · rintro ⟨n, hn⟩
    obtain ⟨k, rfl⟩ := Int.eq_ofNat_of_zero_le (show 0 ≤ n by exact_mod_cast hn ▸ hv)
    have hnat : m.toNat? = some k := Magnitude.toNat?_iff.mpr (by exact_mod_cast hn)
    rw [htext, Magnitude.numeral, hnat]
    simp only
    rw [(denotes_digitChars k).denoted, hn]
    rfl
  · intro hfractional
    have hnone : m.toNat? = none := by
      by_contra hsome
      obtain ⟨k, hk⟩ := Option.ne_none_iff_exists'.mp hsome
      exact hfractional ⟨k, by exact_mod_cast Magnitude.toNat?_iff.mp hk⟩
    have hne : m.mantissa ≠ 0 := by
      intro hzero
      exact hfractional ⟨0, by simp [Magnitude.value, hzero]⟩
    obtain ⟨hnumeral, hshown, hsame⟩ := Magnitude.numeral_of_fractional hbound hnone
    rw [htext, hinspect hne]
    refine ⟨_, hshown, hnumeral, fun hmark => ?_⟩
    rw [← String.toList_inj, htext, hinspect hne, hsame hmark]

/-- The smallest double is written in the logs as a digit with an exponent, and in a program with hundreds of zeros. -/
theorem smallest_double_exact : ∃ v : ℚ, (Quantity.ofFloat (floatOfBits false 1)).value? = some v ∧ 0 ≤ v ∧
    (¬ ∃ n : Int, v = n) ∧ inspectNumber (floatOfBits false 1) = "5e-324" ∧
    ∃ q, denoted? (inspectNumber (floatOfBits false 1)).toList = some q ∧
      denoted? (numeral (floatOfBits false 1)).toList = some q := by
  have hpos : (0 : ℚ) < 2 ^ (-1074 : Int) := zpow_pos (by norm_num) _
  have hlt : (2 : ℚ) ^ (-1074 : Int) < 1 := zpow_lt_one_of_neg₀ (by norm_num) (by norm_num)
  have hvalue : (Quantity.ofFloat (floatOfBits false 1)).value? = some (2 ^ (-1074 : Int)) := by
    rw [Quantity.ofFloat, toNat_toBits_floatOfBits (by decide),
      show Quantity.ofBits 1 = .finite false ⟨1, -1074⟩ by decide]
    simp [Quantity.value?, Magnitude.value]
  have hfractional : ¬ ∃ n : Int, (2 : ℚ) ^ (-1074 : Int) = n := by
    rintro ⟨n, hn⟩
    rw [hn] at hpos hlt
    have : 0 < n := by exact_mod_cast hpos
    have : n < 1 := by exact_mod_cast hlt
    omega
  obtain ⟨-, -, -, hexact⟩ := numeral_exact hvalue hpos.le
  obtain ⟨q, hshown, hnumeral, -⟩ := hexact hfractional
  exact ⟨_, hvalue, hpos.le, hfractional, by decide +kernel, q, hshown, hnumeral⟩

end TillLang.Decimal
