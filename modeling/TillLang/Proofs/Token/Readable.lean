/-
  TillLang.Proofs.Token.Readable — the literals of a source text can be read.

  A token list from elsewhere may hold a number or a quoted text that says nothing. The
  tokens of a source text do not: the lexer takes for a number only digits with at most one
  point between them, and for a quoted text only one whose escapes it knows
  (`tokenize_readable`).
-/

import TillLang.Parse.Fault
import TillLang.Proofs.Decimal.Plain
import TillLang.Proofs.Token.Places

namespace TillLang.Token

open Parse (literalOf? numberOf textOf)

/-- A token that stands for a literal has one. -/
def Readable (t : Token) : Prop := ∀ r, literalOf? t = some r → ∃ v, r = .ok v

theorem readable_of_kind {t : Token} (hn : t.kind = .number → ∃ v, numberOf t = .ok v)
    (hq : t.kind = .string ∨ t.kind = .char → ∃ s, textOf t = .ok s) : t.Readable := by
  intro r hr
  unfold literalOf? at hr
  split at hr
  · rename_i hk
    obtain ⟨v, hv⟩ := hn hk
    exact ⟨v, by rw [← Option.some.inj hr, hv]⟩
  · rename_i hk
    obtain ⟨s, hs⟩ := hq (.inl hk)
    exact ⟨.str s, by rw [← Option.some.inj hr, hs]; rfl⟩
  · rename_i hk
    obtain ⟨s, hs⟩ := hq (.inr hk)
    exact ⟨.char s, by rw [← Option.some.inj hr, hs]; rfl⟩
  · exact ⟨_, (Option.some.inj hr).symm⟩
  · cases hr

/-! ## Numbers -/

/-- The text of a number is in plain decimals. -/
theorem numberText_plain {c : Char} (hc : isDigit c = true) (rest : List Char) :
    ∃ whole fraction, numberText (c :: rest) = Decimal.plainText whole fraction ∧ whole ≠ [] ∧
      (∀ c ∈ whole, isDigit c = true) ∧ ∀ c ∈ fraction, isDigit c = true := by
  have hne : (c :: rest).takeWhile isDigit ≠ [] := by simp [hc]
  have hwhole : ∀ d ∈ (c :: rest).takeWhile isDigit, isDigit d = true := List.all_eq_true.mp List.all_takeWhile
  unfold numberText
  simp only
  split
  · rename_i d more _
    split
    · rename_i hd
      refine ⟨_, d :: more.takeWhile isDigit, rfl, hne, hwhole, fun e he => ?_⟩
      rcases List.mem_cons.mp he with rfl | he
      · exact hd
      · exact List.all_eq_true.mp List.all_takeWhile e he
    · exact ⟨_, [], rfl, hne, hwhole, by simp⟩
  · exact ⟨_, [], rfl, hne, hwhole, by simp⟩

/-! ## Quoted texts -/

theorem decodeBody_cons {c : Char} (h : c ≠ '\\') (rest : List Char) :
    Text.Quoted.decodeBody (c :: rest) = (c :: ·) <$> Text.Quoted.decodeBody rest := by
  conv_lhs => unfold Text.Quoted.decodeBody
  split <;> simp_all

/-- What the lexer takes for the rest of a quoted literal is read back, character by character. -/
theorem decodeBody_of_quotedTail {quote : Char} {unterminated : Fault} {offset count : Nat} {cs text : List Char}
    (h : quotedTail quote unterminated offset cs = .ok (text, count)) :
    ∃ body, Text.Quoted.decodeBody text.dropLast = .ok body ∧ body.length = count ∧ text ≠ [] := by
  fun_induction quotedTail quote unterminated offset cs generalizing text count with
  | case1 | case2 | case4 => cases h
  | case3 offset e rest he ih =>
    obtain ⟨⟨text', count'⟩, ht, h⟩ := Success.map_iff.mp h
    obtain ⟨rfl, rfl⟩ := Prod.mk.inj h
    obtain ⟨body, hbody, hlen, hne⟩ := ih ht
    obtain ⟨x, hx⟩ := Option.isSome_iff_exists.mp he
    refine ⟨x :: body, ?_, by simp [hlen], by simp⟩
    rw [List.dropLast_cons_of_ne_nil (by simp), List.dropLast_cons_of_ne_nil hne]
    simp [Text.Quoted.decodeBody, hx, hbody]
  | case5 =>
    obtain ⟨rfl, rfl⟩ := Prod.mk.inj (Except.ok.inj h)
    exact ⟨[], rfl, rfl, by simp⟩
  | case6 offset c rest hslash hslash' hc ih =>
    obtain ⟨⟨text', count'⟩, ht, h⟩ := Success.map_iff.mp h
    obtain ⟨rfl, rfl⟩ := Prod.mk.inj h
    obtain ⟨body, hbody, hlen, hne⟩ := ih ht
    refine ⟨c :: body, ?_, by simp [hlen], by simp⟩
    have hc : c ≠ '\\' := by
      rintro rfl
      cases rest with
      | nil => exact hslash rfl rfl
      | cons e rest => exact hslash' e rest rfl rfl
    rw [List.dropLast_cons_of_ne_nil hne, decodeBody_cons hc, hbody]
    rfl

theorem textOf_of_quotedTail {quote : Char} {unterminated : Fault} {offset count : Nat} {cs text : List Char}
    (h : quotedTail quote unterminated offset cs = .ok (text, count)) {t : Token}
    (ht : t.lexeme = String.ofList (quote :: text)) : ∃ s, textOf t = .ok s := by
  obtain ⟨body, hbody, -, -⟩ := decodeBody_of_quotedTail h
  exact ⟨String.ofList body, by simp [textOf, ht, Text.Quoted.decode, hbody]⟩

/-! ## The tokens of a text -/

theorem wordKind_cases (word : String) :
    wordKind word = .keyword ∨ wordKind word = .bool ∨ wordKind word = .name := by
  unfold wordKind
  split
  · exact .inl rfl
  · split
    · exact .inr (.inl rfl)
    · exact .inr (.inr rfl)

theorem lexemeAt_readable {c : Char} {rest text : List Char} {t : Token} (h : lexemeAt c rest = .ok (t.kind, text))
    (ht : t.lexeme = String.ofList text) : t.Readable := by
  unfold lexemeAt at h
  split at h
  · cases h
  split at h
  · obtain ⟨hkind, -⟩ := Prod.mk.inj (Except.ok.inj h)
    have hw := wordKind_cases (String.ofList (c :: rest.takeWhile isWordChar))
    rw [hkind] at hw
    refine readable_of_kind (fun hk => ?_) fun hk => ?_
    · rw [hk] at hw
      simp at hw
    · rcases hk with hk | hk <;> rw [hk] at hw <;> simp at hw
  split at h
  · rename_i hc
    obtain ⟨hkind, rfl⟩ := Prod.mk.inj (Except.ok.inj h)
    obtain ⟨whole, fraction, htext, hne, hw, hf⟩ := numberText_plain hc rest
    have hread := Decimal.read?_plain hne hw hf
    exact readable_of_kind (fun _ => ⟨_, by rw [numberOf, ht, htext, hread]⟩) (by simp [← hkind])
  split at h
  · obtain ⟨_, htext, h⟩ := Success.map_iff.mp h
    obtain ⟨hkind, rfl⟩ := Prod.mk.inj h
    obtain ⟨⟨tail, count⟩, htail, rfl⟩ := Success.map_iff.mp htext
    exact readable_of_kind (by simp [← hkind]) fun _ => textOf_of_quotedTail htail ht
  split at h
  · obtain ⟨_, htext, h⟩ := Success.map_iff.mp h
    obtain ⟨hkind, rfl⟩ := Prod.mk.inj h
    obtain ⟨⟨tail, count⟩, htail, htext⟩ := Success.bind_iff.mp htext
    simp only at htext
    split at htext
    · obtain rfl := Except.ok.inj htext
      exact readable_of_kind (by simp [← hkind]) fun _ => textOf_of_quotedTail htail ht
    · cases htext
  split at h
  · obtain ⟨hkind, -⟩ := Prod.mk.inj (Except.ok.inj h)
    exact readable_of_kind (by simp [← hkind]) (by simp [← hkind])
  · cases h

/-- The token was taken from the front of some text. -/
def IsTaken (t : Token) : Prop := ∃ c rest text, lexemeAt c rest = .ok (t.kind, text) ∧ t.lexeme = String.ofList text

theorem scanLine_taken {line offset column depth depth' : Nat} {cs : List Char} {ts : List Token}
    (h : scanLine line offset cs column depth = .ok (ts, depth')) : ∀ t ∈ ts, IsTaken t := by
  fun_induction scanLine line offset cs column depth generalizing ts with
  | case1 => simp_all
  | case2 _ _ _ ih => exact ih h
  | case3 => cases h
  | case4 =>
    rename_i hk _ ih
    obtain ⟨⟨ts', d⟩, hts, h⟩ := Success.map_iff.mp h
    obtain ⟨rfl, rfl⟩ := Prod.mk.inj h
    intro t ht
    rcases List.mem_cons.mp ht with rfl | ht
    · exact ⟨_, _, _, hk, rfl⟩
    · exact ih hts t ht

theorem lines_taken {l last : Layout} {number : Nat} {raws : List (List Char)} {ts : List Token}
    (h : l.lines number raws = .ok (ts, last)) : ∀ t ∈ ordinary ts, IsTaken t := by
  induction raws generalizing l number ts with
  | nil =>
    cases h
    simp [ordinary]
  | cons raw rest ih =>
    obtain ⟨first, next, others, hfirst, hothers, rfl⟩ := lines_cons_iff.mp h
    rw [ordinary_append]
    intro t ht
    rcases List.mem_append.mp ht with ht | ht
    · rcases line_ordinary hfirst with hnil | ⟨cs, column, depth, hscan⟩
      · simp [hnil] at ht
      · exact scanLine_taken hscan t ht
    · exact ih hothers t ht

/-- Every token that stands for text of the source was taken from it. -/
theorem tokenize_taken {source : String} {ts : List Token} (h : tokenize source = .ok ts) :
    ∀ t ∈ ts, t.kind.isOrdinary = true → IsTaken t := by
  obtain ⟨inner, last, hinner, rfl⟩ := tokenize_ok_iff.mp h
  intro t ht hk
  have hmem : t ∈ ordinary (inner ++ last.finish (splitLines source.toList).length
      ((splitLines source.toList).getLastD [])) := List.mem_filter.mpr ⟨ht, hk⟩
  rw [ordinary_append, finish_marks, List.append_nil] at hmem
  exact lines_taken hinner t hmem

/-- A token that was taken from a text can be read, and so can one that stands for none. -/
theorem readable_of_taken {t : Token} (h : t.kind.isOrdinary = true → t.IsTaken) : t.Readable := by
  cases hk : t.kind.isOrdinary with
  | true =>
    obtain ⟨c, rest, text, htaken, htext⟩ := h hk
    exact lexemeAt_readable htaken htext
  | false =>
    refine readable_of_kind (fun h => ?_) fun h => ?_
    · simp [h, Kind.isOrdinary] at hk
    · rcases h with h | h <;> simp [h, Kind.isOrdinary] at hk

/-- The literals of a source text can be read. -/
theorem tokenize_readable {source : String} {ts : List Token} (h : tokenize source = .ok ts) :
    ∀ t ∈ ts, t.Readable := fun t ht => readable_of_taken (tokenize_taken h t ht)

end TillLang.Token
