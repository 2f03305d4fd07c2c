/-
  TillLang.Proofs.Token.Places — the places of tokens.

  The tokens that stand for text of the source come in the order of their places: from line to
  line, and within a line from column to column. So no two of them have the same place
  (`tokenize_ordered`).
-/

import TillLang.Proofs.Token.Stream

namespace TillLang.Token

/-- A token stands in front of another one in the text. -/
def Before (t u : Token) : Prop := t.line < u.line ∨ t.line = u.line ∧ t.column < u.column

theorem Before.location_ne {t u : Token} (h : Before t u) : t.location ≠ u.location := by
  intro heq
  have hline := congrArg Location.line heq
  have hcolumn := congrArg Location.column heq
  simp only [location] at hline hcolumn
  rcases h with h | h <;> omega

/-- The tokens that stand for text of the source. -/
def ordinary (ts : List Token) : List Token := ts.filter (·.kind.isOrdinary)

@[simp] theorem ordinary_append (ts us : List Token) : ordinary (ts ++ us) = ordinary ts ++ ordinary us := by
  simp [ordinary]

theorem ordinary_eq_nil {ts : List Token} (h : ∀ t ∈ ts, t.kind.isOrdinary = false) : ordinary ts = [] := by
  simpa [ordinary] using h

theorem ordinary_eq_self {ts : List Token} (h : ∀ t ∈ ts, t.kind.isOrdinary = true) : ordinary ts = ts := by
  simpa [ordinary] using h

/-! ## One line -/

theorem numberText_ne_nil {c : Char} {rest : List Char} (hc : isDigit c = true) : numberText (c :: rest) ≠ [] := by
  unfold numberText
  simp only [List.takeWhile_cons, hc, if_true]
  split
  · split <;> simp
  · simp

theorem opText_ne_nil {cs text : List Char} (h : opText? cs = some text) : text ≠ [] := by
  unfold opText? at h
  split at h
  · cases h
    simp
  · cases h
    simp
  · split at h
    · cases h
      simp
    · cases h
  · cases h

theorem charText_ne_nil {rest text : List Char} (h : charText rest = .ok text) : text ≠ [] := by
  obtain ⟨⟨text', count⟩, -, h⟩ := Success.bind_iff.mp h
  simp only at h
  split at h
  · cases h
    simp
  · cases h

/-- A token has a text. -/
theorem lexemeAt_ne_nil {c : Char} {rest text : List Char} {kind : Kind} (h : lexemeAt c rest = .ok (kind, text)) :
    text ≠ [] := by
  unfold lexemeAt at h
  split at h
  · cases h
  split at h
  · cases h
    simp
  split at h
  · rename_i hd
    cases h
    exact numberText_ne_nil hd
  split at h
  · obtain ⟨_, hs, h⟩ := Success.map_iff.mp h
    cases h
    obtain ⟨_, -, rfl⟩ := Success.map_iff.mp hs
    simp
  split at h
  · obtain ⟨_, hs, h⟩ := Success.map_iff.mp h
    cases h
    exact charText_ne_nil hs
  split at h
  · rename_i hop
    cases h
    exact opText_ne_nil hop
  · cases h

theorem numberText_isPrefix (cs : List Char) : numberText cs <+: cs := by
  have hsplit := List.takeWhile_append_dropWhile (p := isDigit) (l := cs)
  unfold numberText
  simp only
  split
  · rename_i d rest hdrop
    split
    · rw [hdrop] at hsplit
      nth_rewrite 2 [← hsplit]
      exact (List.prefix_append_right_inj _).mpr (by simpa using List.takeWhile_prefix isDigit)
    · exact List.takeWhile_prefix isDigit
  · exact List.takeWhile_prefix isDigit

theorem quotedTail_isPrefix {quote : Char} {unterminated : Fault} {offset count : Nat} {cs text : List Char}
    (h : quotedTail quote unterminated offset cs = .ok (text, count)) : text <+: cs := by
  fun_induction quotedTail quote unterminated offset cs generalizing text count with
  | case1 | case2 | case4 => cases h
  | case3 offset e rest _ ih =>
    obtain ⟨⟨text', count'⟩, htail, h⟩ := Success.map_iff.mp h
    obtain ⟨rfl, rfl⟩ := Prod.mk.inj h
    simpa using ih htail
  | case5 =>
    obtain ⟨rfl, rfl⟩ := Prod.mk.inj (Except.ok.inj h)
    simp
  | case6 offset c rest _ _ _ ih =>
    obtain ⟨⟨text', count'⟩, htail, h⟩ := Success.map_iff.mp h
    obtain ⟨rfl, rfl⟩ := Prod.mk.inj h
    simpa using ih htail

theorem opText_isPrefix {cs text : List Char} (h : opText? cs = some text) : text <+: cs := by
  unfold opText? at h
  split at h
  · cases h
    simp
  · cases h
    simp
  · split at h
    · cases h
      simp
    · cases h
  · cases h

/-- A token is the start of what is left of its line. -/
theorem lexemeAt_isPrefix {c : Char} {rest text : List Char} {kind : Kind} (h : lexemeAt c rest = .ok (kind, text)) :
    text <+: c :: rest := by
  unfold lexemeAt at h
  split at h
  · cases h
  split at h
  · cases h
    simpa using List.takeWhile_prefix isWordChar
  split at h
  · cases h
    exact numberText_isPrefix _
  split at h
  · rename_i hc
    obtain ⟨_, hs, h⟩ := Success.map_iff.mp h
    cases h
    obtain ⟨⟨tail, count⟩, htail, rfl⟩ := Success.map_iff.mp hs
    simpa [hc] using quotedTail_isPrefix htail
  split at h
  · rename_i hc
    obtain ⟨_, hs, h⟩ := Success.map_iff.mp h
    cases h
    obtain ⟨⟨tail, count⟩, htail, hs⟩ := Success.bind_iff.mp hs
    simp only at hs
    split at hs
    · cases hs
      simpa [hc] using quotedTail_isPrefix htail
    · cases hs
  split at h
  · rename_i hop
    cases h
    exact opText_isPrefix hop
  · cases h

/-- The tokens of a line come from column to column. -/
theorem scanLine_ordered {line offset column depth depth' : Nat} {cs : List Char} {ts : List Token}
    (h : scanLine line offset cs column depth = .ok (ts, depth')) :
    (∀ t ∈ ts, t.line = line ∧ column ≤ t.column) ∧ ts.Pairwise Before := by
  fun_induction scanLine line offset cs column depth generalizing ts with
  | case1 =>
    cases h
    simp
  | case2 column depth rest ih =>
    obtain ⟨hplace, hordered⟩ := ih h
    refine ⟨fun t ht => ?_, hordered⟩
    have ht := hplace t ht
    exact ⟨ht.1, by omega⟩
  | case3 => cases h
  | case4 column =>
    rename_i hk _ ih
    obtain ⟨⟨others, d⟩, hothers, h⟩ := Success.map_iff.mp h
    cases h
    obtain ⟨hplace, hordered⟩ := ih hothers
    have hlen := List.length_pos_iff.mpr (lexemeAt_ne_nil hk)
    refine ⟨?_, List.pairwise_cons.mpr ⟨fun t ht => ?_, hordered⟩⟩
    · intro t ht
      rcases List.mem_cons.mp ht with rfl | ht
      · exact ⟨rfl, Nat.le_refl _⟩
      · exact ⟨(hplace t ht).1, by have := (hplace t ht).2; omega⟩
    · obtain ⟨hline, hcolumn⟩ := hplace t ht
      exact .inr ⟨hline.symm, show column < t.column by omega⟩

/-! ## All lines -/

theorem reindent_marks {l : Layout} {line width : Nat} {ts : List Token} {indents : List Nat}
    (h : l.reindent line width = .ok (ts, indents)) : ∀ t ∈ ts, t.kind.isOrdinary = false := by
  unfold Layout.reindent at h
  split at h
  · cases h
    simp [Layout.mark, Kind.isOrdinary]
  · simp only at h
    split at h
    · cases h
      intro t ht
      rw [(List.mem_replicate.mp ht).2]
      rfl
    · cases h

/-- What stands for text of the source in a line was scanned from it. -/
theorem Layout.Opens.ordinary {l : Layout} {number width start column depth depth' : Nat} {text cs : List Char}
    {front body ending : List Token} {indents : List Nat} (hopen : l.Opens number text width front indents)
    (hbody : scanLine number start cs column depth = .ok (body, depth'))
    (hend : ∀ t ∈ ending, t.kind = .newline) : ordinary (front ++ body ++ ending) = body := by
  have hfront : Token.ordinary front = [] := by
    refine ordinary_eq_nil ?_
    unfold Layout.Opens at hopen
    split at hopen
    · exact reindent_marks hopen.2
    · simp [hopen.2.1]
  have hend : Token.ordinary ending = [] := ordinary_eq_nil fun t ht => by rw [hend t ht]; rfl
  rw [ordinary_append, ordinary_append, hfront, hend, ordinary_eq_self fun t ht => (scanLine_lexemes hbody t ht).1,
    List.nil_append, List.append_nil]

theorem newline_of_ending {l : Layout} {number column depth : Nat} :
    ∀ t ∈ (if depth = 0 then [l.mark .newline number column] else []), t.kind = .newline := by
  intro t ht
  split at ht
  · rw [List.mem_singleton.mp ht]
    rfl
  · cases ht

theorem line_ordinary {l next : Layout} {number : Nat} {raw : List Char} {ts : List Token}
    (h : l.line number raw = .ok (ts, next)) :
    ordinary ts = [] ∨ ∃ cs column depth, scanLine number l.offset cs column l.depth = .ok (ordinary ts, depth) := by
  rcases line_cases h with ⟨-, rfl, -⟩ | ⟨width, front, indents, body, depth, hopen, hbody, rfl, -⟩
  · exact .inl rfl
  · rw [hopen.ordinary hbody newline_of_ending]
    exact .inr ⟨_, _, _, hbody⟩

theorem line_ordered {l next : Layout} {number : Nat} {raw : List Char} {ts : List Token}
    (h : l.line number raw = .ok (ts, next)) :
    (∀ t ∈ ordinary ts, t.line = number) ∧ (ordinary ts).Pairwise Before := by
  rcases line_ordinary h with hnil | ⟨cs, column, depth, hscan⟩
  · simp [hnil]
  · obtain ⟨hplace, hordered⟩ := scanLine_ordered hscan
    exact ⟨fun t ht => (hplace t ht).1, hordered⟩

theorem lines_ordered {l last : Layout} {number : Nat} {raws : List (List Char)} {ts : List Token}
    (h : l.lines number raws = .ok (ts, last)) :
    (∀ t ∈ ordinary ts, number ≤ t.line) ∧ (ordinary ts).Pairwise Before := by
  induction raws generalizing l number ts with
  | nil =>
    cases h
    simp [ordinary]
  | cons raw rest ih =>
    obtain ⟨first, next, others, hfirst, hothers, rfl⟩ := lines_cons_iff.mp h
    obtain ⟨hline, hordered⟩ := line_ordered hfirst
    obtain ⟨hlater, hrest⟩ := ih hothers
    rw [ordinary_append]
    refine ⟨fun t ht => ?_, List.pairwise_append.mpr ⟨hordered, hrest, fun t ht u hu => ?_⟩⟩
    · rcases List.mem_append.mp ht with ht | ht
      · exact Nat.le_of_eq (hline t ht).symm
      · exact Nat.le_of_succ_le (hlater t ht)
    · have ht := hline t ht
      have hu := hlater u hu
      exact .inl (by omega)

theorem finish_marks (l : Layout) (count : Nat) (raw : List Char) : ordinary (l.finish count raw) = [] := by
  refine ordinary_eq_nil fun t ht => ?_
  simp only [Layout.finish, List.mem_append, List.mem_replicate, List.mem_singleton] at ht
  rcases ht with (ht | ⟨-, rfl⟩) | rfl
  · split at ht
    · cases ht
    · rw [List.mem_singleton.mp ht]
      rfl
  · rfl
  · rfl

/-- The tokens that stand for text of the source come in the order of their places. -/
theorem tokenize_ordered {source : String} {ts : List Token} (h : tokenize source = .ok ts) :
    (ordinary ts).Pairwise Before := by
  obtain ⟨inner, last, hinner, rfl⟩ := tokenize_ok_iff.mp h
  rw [ordinary_append, finish_marks, List.append_nil]
  exact (lines_ordered hinner).2

end TillLang.Token
