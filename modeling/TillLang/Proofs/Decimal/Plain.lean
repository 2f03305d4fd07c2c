/-
  TillLang.Proofs.Decimal.Plain — reading a number that is written in plain decimals.

  The numbers of a program are written without a sign and without an exponent: digits, and
  perhaps a point and more digits. What is read from loose text may hold much else, but
  nothing of that changes such a text: it is read as its digits, scaled by the number of
  those behind the point (`read?_plain`).
-/

import TillLang.Decimal.Reading

namespace TillLang.Decimal

/-- Digits, and behind a point more digits if there are any. -/
def plainText (whole fraction : List Char) : List Char :=
  if fraction.isEmpty then whole else whole ++ '.' :: fraction

/-- The characters of plain decimals. -/
def IsPlain (c : Char) : Prop := isPlainDigit c = true ∨ c = '.'

/-! ## Characters -/

/-- What holds of the ten digits, one by one, holds of every digit. -/
theorem of_isPlainDigit {P : Char → Prop} (hall : ∀ n, n < 10 → P (Char.ofNat (48 + n))) {c : Char}
    (h : isPlainDigit c = true) : P c := by
  simp only [isPlainDigit, Bool.and_eq_true, decide_eq_true_eq, Char.le_def, UInt32.le_iff_toNat_le] at h
  have hlow : 48 ≤ c.toNat := h.1
  have hhigh : c.toNat ≤ 57 := h.2
  have hc := hall (c.toNat - 48) (by omega)
  rwa [Nat.add_sub_cancel' hlow, Char.ofNat_toNat] at hc

theorem of_isPlain {P : Char → Prop} (hall : ∀ n, n < 10 → P (Char.ofNat (48 + n))) (hpoint : P '.') {c : Char}
    (h : IsPlain c) : P c := by
  rcases h with h | rfl
  · exact of_isPlainDigit hall h
  · exact hpoint

theorem isPlain_plainText {whole fraction : List Char} (hw : ∀ c ∈ whole, isPlainDigit c = true)
    (hf : ∀ c ∈ fraction, isPlainDigit c = true) : ∀ c ∈ plainText whole fraction, IsPlain c := by
  intro c hc
  unfold plainText at hc
  split at hc
  · exact .inl (hw c hc)
  · rcases List.mem_append.mp hc with hc | hc
    · exact .inl (hw c hc)
    · rcases List.mem_cons.mp hc with rfl | hc
      · exact .inr rfl
      · exact .inl (hf c hc)

/-! ## What leaves plain decimals alone -/

theorem trimBlanks_of_none {s : List Char} (h : ∀ c ∈ s, Text.isBlank c = false) : Text.trimBlanks s = s := by
  have hdrop : ∀ t : List Char, (∀ c ∈ t, Text.isBlank c = false) → t.dropWhile Text.isBlank = t := by
    intro t ht
    cases t with
    | nil => rfl
    | cons c t => simp [ht c (by simp)]
  rw [Text.trimBlanks, hdrop s h, hdrop s.reverse (by simpa using h), List.reverse_reverse]

theorem dropUnderscores?_of_none {s : List Char} (h : ∀ c ∈ s, c ≠ '_') (b : Bool) :
    dropUnderscores? b s = some s := by
  fun_induction dropUnderscores? b s with
  | case1 => rfl
  | case2 | case3 | case4 => exact absurd rfl (h '_' (by simp))
  | case5 _ c s _ _ ih => rw [ih fun c hc => h c (List.mem_cons_of_mem _ hc), Option.map_eq_map, Option.map_some]

theorem takeSign_of_plain {s : List Char} (h : ∀ c ∈ s, IsPlain c) : takeSign s = (false, s) := by
  unfold takeSign
  split
  · exact absurd (h '+' (by simp)) (by unfold IsPlain; decide)
  · exact absurd (h '-' (by simp)) (by unfold IsPlain; decide)
  · rfl

/-! ## Reading -/

theorem takeWhile_plain {whole : List Char} (hw : ∀ c ∈ whole, isPlainDigit c = true) (rest : List Char)
    (hr : ∀ c ∈ rest.head?, isPlainDigit c = false) :
    (whole ++ rest).takeWhile isPlainDigit = whole ∧ (whole ++ rest).dropWhile isPlainDigit = rest := by
  induction whole with
  | nil =>
    cases rest with
    | nil => exact ⟨rfl, rfl⟩
    | cons c rest => simp [hr c (by simp)]
  | cons c whole ih =>
    obtain ⟨h1, h2⟩ := ih fun c hc => hw c (List.mem_cons_of_mem _ hc)
    simp [hw c (by simp), h1, h2]

theorem readScientific?_plain {whole fraction : List Char} (hne : whole ≠ [])
    (hw : ∀ c ∈ whole, isPlainDigit c = true) (hf : ∀ c ∈ fraction, isPlainDigit c = true) :
    readScientific? (plainText whole fraction) =
      some ⟨ofDigits ((whole ++ fraction).map plainValue), -fraction.length⟩ := by
  have hwhole : whole.isEmpty = false := by simpa using hne
  cases fraction with
  | nil =>
    obtain ⟨h1, h2⟩ := takeWhile_plain hw [] (by simp)
    rw [List.append_nil] at h1 h2
    simp [plainText, readScientific?, h1, h2, hwhole, readExponent?]
  | cons d fraction =>
    obtain ⟨h1, h2⟩ := takeWhile_plain hw ('.' :: d :: fraction) (by simp; decide)
    obtain ⟨h3, h4⟩ := takeWhile_plain hf [] (by simp)
    rw [List.append_nil] at h3 h4
    simp [plainText, readScientific?, h1, h2, h3, h4, hwhole, readExponent?]

/-- The words for infinity and its like start with a letter. -/
theorem readUnsigned?_of_digit {c : Char} (h : isPlainDigit c = true) (negative : Bool) (rest : List Char) :
    readUnsigned? negative (c :: rest) = (nearest negative ·) <$> readScientific? (c :: rest) := by
  have hword : ∀ word : String, word.toList.head? ≠ some c.toLower →
      String.ofList ((c :: rest).map Char.toLower) ≠ word := by
    rintro word hhead rfl
    simp at hhead
  have hlower : c.toLower ≠ 'i' ∧ c.toLower ≠ 'n' :=
    of_isPlainDigit (P := fun c => c.toLower ≠ 'i' ∧ c.toLower ≠ 'n') (by decide) h
  have hinf := hword "inf" fun h => hlower.1 (Option.some.inj h).symm
  have hinfinity := hword "infinity" fun h => hlower.1 (Option.some.inj h).symm
  have hnan := hword "nan" fun h => hlower.2 (Option.some.inj h).symm
  simp only [readUnsigned?, hinf, hinfinity, hnan, decide_false, Bool.or_false, Bool.false_eq_true, if_false]

/-- Plain decimals are read as their digits, scaled by the number of those behind the point. -/
theorem read?_plain {whole fraction : List Char} (hne : whole ≠ []) (hw : ∀ c ∈ whole, isPlainDigit c = true)
    (hf : ∀ c ∈ fraction, isPlainDigit c = true) :
    read? (String.ofList (plainText whole fraction)) =
      some (nearest false ⟨ofDigits ((whole ++ fraction).map plainValue), -fraction.length⟩) := by
  have hplain := isPlain_plainText hw hf
  have htrim : Text.trimBlanks (plainText whole fraction) = plainText whole fraction :=
    trimBlanks_of_none fun c hc =>
      of_isPlain (P := fun c => Text.isBlank c = false) (by decide) (by decide) (hplain c hc)
  have hmap : (plainText whole fraction).map plainDigit = plainText whole fraction :=
    (List.map_congr_left fun c hc => of_isPlain (P := fun c => plainDigit c = id c) (by decide) (by decide)
      (hplain c hc)).trans (List.map_id _)
  have hunder := dropUnderscores?_of_none (s := plainText whole fraction)
    (fun c hc => of_isPlain (P := fun c => c ≠ '_') (by decide) (by decide) (hplain c hc)) false
  have hunsigned : readUnsigned? false (plainText whole fraction) =
      (nearest false ·) <$> readScientific? (plainText whole fraction) := by
    obtain ⟨c, whole, rfl⟩ := List.exists_cons_of_ne_nil hne
    obtain ⟨rest, hrest⟩ : ∃ rest, plainText (c :: whole) fraction = c :: rest := by
      unfold plainText
      split <;> exact ⟨_, rfl⟩
    rw [hrest]
    exact readUnsigned?_of_digit (hw c (by simp)) false rest
  simp [read?, htrim, hmap, hunder, takeSign_of_plain hplain, hunsigned, readScientific?_plain hne hw hf]

end TillLang.Decimal
