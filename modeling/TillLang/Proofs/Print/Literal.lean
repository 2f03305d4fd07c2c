/-
  TillLang.Proofs.Print.Literal — the text of a literal is read as the literal.

  A source text has four kinds of literals. A number that is finite and not below zero is read
  back as it was, except that the zero with a sign is read as the zero without (`settled`); so are
  texts and characters, whatever they hold, and the two truth values (`legible_of_usual`).
-/

import Mathlib.Data.List.TakeWhile
import TillLang.Proofs.Parse.Formed
import TillLang.Proofs.Print.Expression
import TillLang.Proofs.Syntax.Literals

namespace TillLang

open Decimal (IsFinite floatOfBits infinityBits signBits)
open Syntax (isNegative sameLiteral)

/-- A literal of a kind that source texts have, with a condition on numbers. -/
inductive Literal.Usual (number : Float → Prop) : Literal → Prop
  | num {x : Float} (h : number x) : Usual number (.num x)
  | str (s : String) : Usual number (.str s)
  | char (c : Char) : Usual number (.char (String.singleton c))
  | bool (b : Bool) : Usual number (.bool b)

theorem Literal.Usual.mono {number number' : Float → Prop} {v : Literal} (h : v.Usual number)
    (hnum : ∀ x, v = .num x → number x → number' x) : v.Usual number' := by
  cases h with
  | num hx => exact .num (hnum _ rfl hx)
  | str s => exact .str s
  | char c => exact .char c
  | bool b => exact .bool b

/-- The zero with a sign becomes the zero without; all other literals stay as they are. -/
def Literal.settled : Literal → Literal
  | .num x => if x.toBits.toNat = signBits then .num (floatOfBits false 0) else .num x
  | v => v

namespace Print

open Token (Writes Bounded)
open Parse (literalOf?)

variable {form : Literal → Literal}

/-! ## Numbers -/

/-- A number that is not below zero is read as itself, if the form does not tell the zeros apart. -/
theorem legible_num {x : Float} (h : IsFinite x) (hneg : isNegative x = false)
    (hzero : x = floatOfBits true 0 → form (.num (floatOfBits false 0)) = form (.num x)) : Legible form (.num x) := by
  obtain ⟨whole, fraction, bits, htext, hne, hw, hf, hread, hx⟩ := Decimal.read?_numeral h hneg
  refine ⟨fun y hy => by cases hy; exact hneg, Decimal.numeral x, by simp [Syntax.printLiteral, hneg], ?_⟩
  rw [htext]
  refine (Token.writes_number hne hw hf).imp ?_
  rintro _ ⟨t, rfl, hk, hl⟩
  rw [← htext, String.ofList_toList] at hl
  refine ⟨t, .num (floatOfBits false bits), rfl, by simp [literalOf?, hk, Parse.numberOf, hl, hread], ?_⟩
  rcases hx with rfl | ⟨rfl, rfl⟩
  · rfl
  · exact hzero rfl

theorem toNat_toBits_negativeZero : (floatOfBits true 0).toBits.toNat = signBits := by
  decide +kernel

/-- The pattern of the zero with a sign is that of no other double. -/
theorem eq_negativeZero {x : Float} (h : x.toBits.toNat = signBits) : x = floatOfBits true 0 := by
  have hofNat : UInt64.ofNat x.toBits.toNat = x.toBits := UInt64.ofNat_toNat
  rw [← Float.ofBits_toBits x, ← hofNat, h]
  rfl

theorem settled_negativeZero : (Literal.num (floatOfBits true 0)).settled = .num (floatOfBits false 0) := by
  rw [Literal.settled, if_pos toNat_toBits_negativeZero]

theorem settled_num {x : Float} (h : x ≠ floatOfBits true 0) : (Literal.num x).settled = .num x := by
  rw [Literal.settled, if_neg fun hbits => h (eq_negativeZero hbits)]

theorem ne_negativeZero {bits : Nat} (h : bits < infinityBits) : floatOfBits false bits ≠ floatOfBits true 0 := by
  intro heq
  have hbits := congrArg (fun x : Float => x.toBits.toNat) heq
  simp only [toNat_toBits_negativeZero, Decimal.toNat_toBits_floatOfBits h] at hbits
  have : infinityBits < signBits := by decide
  omega

theorem settled_zero : (Literal.num (floatOfBits false 0)).settled = .num (floatOfBits false 0) :=
  settled_num (ne_negativeZero (by decide))

theorem sameNumber_of_settled {x y : Float} (h : IsFinite x) (heq : (Literal.num x).settled = (Literal.num y).settled) :
    (x == y) = true := by
  have hzeros : (floatOfBits true 0 == floatOfBits false 0) = true ∧
      (floatOfBits false 0 == floatOfBits true 0) = true := by
    decide +kernel
  by_cases hx : x = floatOfBits true 0 <;> by_cases hy : y = floatOfBits true 0
  · rw [hx, hy]
    exact Decimal.beq_self_of_isFinite (hx ▸ h)
  · rw [hx, settled_negativeZero, settled_num hy] at heq
    obtain rfl := (Literal.num.inj heq).symm
    rw [hx]
    exact hzeros.1
  · rw [hy, settled_negativeZero, settled_num hx] at heq
    obtain rfl := Literal.num.inj heq
    rw [hy]
    exact hzeros.2
  · rw [settled_num hx, settled_num hy] at heq
    obtain rfl := Literal.num.inj heq
    exact Decimal.beq_self_of_isFinite h

/-- What is settled to something else than a number was that already. -/
theorem eq_of_settled {kind : String} {value : Json} {hk : kind ≠ numKind} {w : Literal}
    (h : .other kind value hk = w.settled) : w = .other kind value hk := by
  cases w with
  | num y =>
    rw [Literal.settled] at h
    split at h <;> cases h
  | other => exact h.symm

/-- Literals of source texts with the same settled form are equal. -/
theorem sameLiteral_of_settled {v w : Literal} (h : v.Usual IsFinite) (heq : v.settled = w.settled) :
    sameLiteral v w = true := by
  cases h with
  | num hx =>
    cases w with
    | num y => exact sameNumber_of_settled hx heq
    | other => cases eq_of_settled heq.symm
  | str s =>
    obtain rfl := eq_of_settled heq
    simp [sameLiteral, Literal.str, Json.same]
  | char c =>
    obtain rfl := eq_of_settled heq
    simp [sameLiteral, Literal.char, Json.same]
  | bool b =>
    obtain rfl := eq_of_settled heq
    simp [sameLiteral, Literal.bool, Json.same, Json.sameNumber, Json.int?]

/-! ## Texts and characters -/

theorem quoteValue_str (delimiter : Char) (s : String) : Syntax.quoteValue delimiter (.str s) =
    .ok (String.ofList (Text.Quoted.encode delimiter s.toList)) := by
  have hitems : ∀ cs : List Char, Syntax.unhashable? (cs.map fun c => Json.str (String.singleton c)) = none := by
    intro cs
    induction cs with
    | nil => rfl
    | cons c cs ih => exact ih
  have hjoin : ∀ (cs : List Char) (index : Nat), Syntax.joinTexts index
      ((cs.map fun c => Json.str (String.singleton c)).map (Syntax.quoteItem delimiter)) =
        .ok (String.ofList (Text.Quoted.encodeBody delimiter cs)) := by
    intro cs
    induction cs with
    | nil => exact fun _ => rfl
    | cons c cs ih =>
      intro index
      simp only [List.map_cons, Syntax.quoteItem, String.toList_singleton, Syntax.joinTexts, ih, Success.ok_map,
        Text.Quoted.encodeBody, List.flatMap_cons, String.ofList_append]
  simp only [Syntax.quoteValue, Syntax.sequence?, hitems, hjoin, Success.ok_bind, Success.pure_eq]
  rw [Except.ok.injEq, ← String.toList_inj]
  simp [Text.Quoted.encode, String.toList_append]

theorem legible_str (s : String) : Legible form (.str s) := by
  refine ⟨nofun, _, quoteValue_str '"' s, ?_⟩
  rw [String.toList_ofList]
  refine (Token.writes_string s.toList).anywhere.imp ?_
  rintro _ ⟨t, rfl, ht⟩
  exact ⟨t, _, rfl, ht, by rw [String.ofList_toList]⟩

theorem legible_char (c : Char) : Legible form (.char (String.singleton c)) := by
  refine ⟨nofun, _, quoteValue_str '\'' _, ?_⟩
  rw [String.toList_ofList, String.toList_singleton]
  refine (Token.writes_char c).anywhere.imp ?_
  rintro _ ⟨t, rfl, ht⟩
  exact ⟨t, _, rfl, ht, rfl⟩

/-! ## Truth values -/

theorem legible_bool (b : Bool) : Legible form (.bool b) := by
  have hword : ∀ word : String, (word = "true" ∧ b = true ∨ word = "false" ∧ b = false) →
      Writes Bounded word.toList fun ts => ∃ t w, ts = [t] ∧ literalOf? t = some (.ok w) ∧ form w = form (.bool b) := by
    rintro word (⟨rfl, rfl⟩ | ⟨rfl, rfl⟩)
    all_goals
      refine (Token.writes_word (by decide) (List.all_eq_true.mp (by decide))).imp ?_
      rintro _ ⟨t, rfl, hk, hl⟩
      exact ⟨t, _, rfl, by simp only [literalOf?, hk]; rfl, by rw [hl]; rfl⟩
  have hnum : ∀ x, Literal.bool b = .num x → Syntax.isNegative x = false := by
    intro x hx
    cases hx
  refine ⟨hnum, if b then "true" else "false", rfl, hword _ ?_⟩
  cases b
  · exact .inr ⟨rfl, rfl⟩
  · exact .inl ⟨rfl, rfl⟩

/-- The literals of source texts are legible if their numbers are. -/
theorem legible_of_usual {number : Float → Prop} (hnum : ∀ x, number x → Legible form (.num x)) {v : Literal}
    (h : v.Usual number) : Legible form v := by
  cases h with
  | num hx => exact hnum _ hx
  | str s => exact legible_str s
  | char c => exact legible_char c
  | bool b => exact legible_bool b

end Print

/-! ## The literals of a source text -/

namespace Token

open Parse (literalOf?)

/-- A number that was read is not negative, but may have overflowed. -/
def IsRead (x : Float) : Prop := ∃ bits, bits ≤ infinityBits ∧ x = floatOfBits false bits

theorem isRead_nearest (s : Decimal.Scientific) : IsRead (Decimal.nearest false s) := by
  refine ⟨_, ?_, rfl⟩
  split
  · exact Nat.zero_le _
  split
  · exact Nat.le_refl _
  · exact Nat.min_le_left _ _

theorem IsRead.of_isFinite {x : Float} (h : IsRead x) (hfin : IsFinite x) :
    ∃ bits, bits < infinityBits ∧ x = floatOfBits false bits := by
  obtain ⟨bits, hbits, rfl⟩ := h
  refine ⟨bits, Nat.lt_of_le_of_ne hbits ?_, rfl⟩
  rintro rfl
  exact Decimal.not_isFinite_infinity hfin

theorem usual_text {t : Token} {quote : Char} {unterminated : Fault} {count : Nat} {cs text : List Char}
    (h : quotedTail quote unterminated 1 cs = .ok (text, count)) (ht : t.lexeme = String.ofList (quote :: text)) :
    ∃ body, Parse.textOf t = .ok (String.ofList body) ∧ body.length = count := by
  obtain ⟨body, hbody, hlen, -⟩ := decodeBody_of_quotedTail h
  exact ⟨body, by simp [Parse.textOf, ht, Text.Quoted.decode, hbody], hlen⟩

/-- The literal of a token that was taken from a text is of a usual kind. -/
theorem IsTaken.usual {t : Token} (h : t.IsTaken) {v : Literal} (hv : literalOf? t = some (.ok v)) :
    v.Usual IsRead := by
  obtain ⟨c, rest, text, hlex, htext⟩ := h
  unfold lexemeAt at hlex
  split at hlex
  · cases hlex
  split at hlex
  · obtain ⟨hkind, -⟩ := Prod.mk.inj (Except.ok.inj hlex)
    rcases wordKind_cases (String.ofList (c :: rest.takeWhile isWordChar)) with hw | hw | hw <;>
      simp only [literalOf?, ← hkind, hw] at hv <;> cases hv
    exact .bool _
  split at hlex
  · rename_i hc
    obtain ⟨hkind, rfl⟩ := Prod.mk.inj (Except.ok.inj hlex)
    obtain ⟨whole, fraction, hplain, hne, hw, hf⟩ := numberText_plain hc rest
    have hread := Decimal.read?_plain hne hw hf
    simp only [literalOf?, ← hkind, Parse.numberOf, htext, hplain, hread] at hv
    cases hv
    exact .num (isRead_nearest _)
  split at hlex
  · obtain ⟨_, hstring, hlex⟩ := Success.map_iff.mp hlex
    obtain ⟨hkind, rfl⟩ := Prod.mk.inj hlex
    obtain ⟨⟨tail, count⟩, htail, rfl⟩ := Success.map_iff.mp hstring
    obtain ⟨body, hbody, -⟩ := usual_text htail htext
    simp only [literalOf?, ← hkind, hbody] at hv
    cases hv
    exact .str _
  split at hlex
  · obtain ⟨_, hchar, hlex⟩ := Success.map_iff.mp hlex
    obtain ⟨hkind, rfl⟩ := Prod.mk.inj hlex
    obtain ⟨⟨tail, count⟩, htail, hchar⟩ := Success.bind_iff.mp hchar
    simp only at hchar
    split at hchar
    · rename_i hcount
      obtain rfl := Except.ok.inj hchar
      obtain ⟨body, hbody, hlen⟩ := usual_text htail htext
      obtain ⟨d, rfl⟩ := List.length_eq_one_iff.mp (hlen.trans hcount)
      simp only [literalOf?, ← hkind, hbody] at hv
      cases hv
      exact .char d
    · cases hchar
  split at hlex
  · obtain ⟨hkind, -⟩ := Prod.mk.inj (Except.ok.inj hlex)
    simp only [literalOf?, ← hkind] at hv
    cases hv
  · cases hlex

/-- A name that was taken from a text is scanned as a name again. -/
theorem IsTaken.isName {t : Token} (h : t.IsTaken) (hk : t.kind = .name) : IsName t.lexeme := by
  obtain ⟨c, rest, text, hlex, htext⟩ := h
  rw [hk] at hlex
  unfold lexemeAt at hlex
  split at hlex
  · cases hlex
  rename_i htab
  split at hlex
  · rename_i hc
    obtain ⟨hkind, rfl⟩ := Prod.mk.inj (Except.ok.inj hlex)
    refine ⟨c, rest.takeWhile isWordChar, by rw [htext, String.toList_ofList], ?_⟩
    unfold lexemeAt
    simp only [if_neg htab, if_pos hc, List.takeWhile_idem, hkind]
  split at hlex
  · cases hlex
  split at hlex
  · obtain ⟨_, -, hlex⟩ := Success.map_iff.mp hlex
    cases hlex
  split at hlex
  · obtain ⟨_, -, hlex⟩ := Success.map_iff.mp hlex
    cases hlex
  split at hlex <;> cases hlex

/-- The tokens of a source text supply usual literals and names. -/
theorem supplies_of_tokenize {source : String} {ts : List Token} (h : tokenize source = .ok ts) :
    Parse.Supplies (Literal.Usual IsRead) IsName ts := by
  intro t ht
  refine ⟨fun v hv => ?_, fun hk => ?_⟩
  · exact (tokenize_taken h t ht (Parse.isOrdinary_of_literal hv)).usual hv
  · exact (tokenize_taken h t ht (by rw [hk]; rfl)).isName hk

end Token

end TillLang
