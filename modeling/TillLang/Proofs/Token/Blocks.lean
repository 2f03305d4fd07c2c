/-
  TillLang.Proofs.Token.Blocks — the blocks that tokens open and close.

  Only what stands in front of a line opens or closes blocks: one is opened, or some are closed,
  and no more than were open. `Balances` says this of a row of tokens that leads from some open
  blocks to others. It is kept from line to line, with the widths that the lexer carries along
  as the open blocks, and at the end of a text none is left open (`tokenize_balances`).
-/

import TillLang.Proofs.Token.Lines
import TillLang.Proofs.Token.Places

namespace TillLang.Token

/-- How many blocks some tokens open. -/
def opened (ts : List Token) : Nat := (ts.map kind).count .indent

/-- How many blocks some tokens close. -/
def closed (ts : List Token) : Nat := (ts.map kind).count .dedent

/-- Tokens that lead from `before` open blocks to `after`, and close only blocks that are open. -/
structure Balances (before : Nat) (ts : List Token) (after : Nat) : Prop where
  front : ∀ front, front <+: ts → closed front ≤ before + opened front
  total : before + opened ts = after + closed ts

variable {n m k : Nat} {ts us : List Token}

@[simp] theorem opened_append (ts us : List Token) : opened (ts ++ us) = opened ts + opened us := by
  simp [opened]

@[simp] theorem closed_append (ts us : List Token) : closed (ts ++ us) = closed ts + closed us := by
  simp [closed]

theorem Balances.append (h : Balances n ts m) (h' : Balances m us k) : Balances n (ts ++ us) k := by
  refine ⟨fun front hfront => ?_, ?_⟩
  · rcases List.prefix_or_prefix_of_prefix hfront (List.prefix_append ts us) with hts | ⟨more, rfl⟩
    · exact h.front front hts
    · have hmore := h'.front more ((List.prefix_append_right_inj ts).mp hfront)
      have htotal := h.total
      simp only [opened_append, closed_append]
      omega
  · have h₁ := h.total
    have h₂ := h'.total
    simp only [opened_append, closed_append]
    omega

/-- Tokens that neither open nor close a block. -/
theorem balances_of_level (h : ∀ t ∈ ts, t.kind ≠ .indent ∧ t.kind ≠ .dedent) (n : Nat) : Balances n ts n := by
  have hnone : ∀ us : List Token, (∀ t ∈ us, t ∈ ts) → opened us = 0 ∧ closed us = 0 := by
    intro us hus
    simp only [opened, closed, List.count_eq_zero, List.mem_map, not_exists, not_and]
    exact ⟨fun t ht => (h t (hus t ht)).1, fun t ht => (h t (hus t ht)).2⟩
  refine ⟨fun front hfront => ?_, ?_⟩
  · have := hnone front fun t ht => hfront.subset ht
    omega
  · have := hnone ts fun _ => id
    omega

theorem balances_of_ordinary (h : ∀ t ∈ ts, t.kind.isOrdinary = true) (n : Nat) : Balances n ts n := by
  refine balances_of_level (fun t ht => ?_) n
  have := h t ht
  constructor <;> intro hk <;> simp [hk, Kind.isOrdinary] at this

theorem balances_indent {t : Token} (h : t.kind = .indent) (n : Nat) : Balances n [t] (n + 1) := by
  refine ⟨fun front hfront => ?_, by simp [opened, closed, h]⟩
  rcases List.prefix_cons_iff.mp hfront with rfl | ⟨rest, rfl, hrest⟩
  · simp [closed]
  · simp [closed, List.prefix_nil.mp hrest, h]

theorem balances_dedents {t : Token} (h : t.kind = .dedent) (n m : Nat) :
    Balances (n + m) (List.replicate n t) m := by
  have hcount : ∀ i, opened (List.replicate i t) = 0 ∧ closed (List.replicate i t) = i := by
    simp [opened, closed, List.count_replicate, h]
  refine ⟨fun front hfront => ?_, by have := hcount n; omega⟩
  obtain ⟨hlen, hfront⟩ := List.prefix_replicate_iff.mp hfront
  rw [hfront, (hcount front.length).1, (hcount front.length).2]
  omega

/-! ## One line -/

theorem line_of_blank {raw : List Char} (h : isBlankLine (dropReturn raw) = true) (l : Layout) (number : Nat) :
    l.line number raw = .ok ([], { l with offset := l.offset + raw.length + 1 }) := by
  unfold Layout.line
  simp only
  rw [if_pos h]

/-- A text that is not only spaces has a token. -/
theorem scanLine_ne_nil {line offset column depth depth' : Nat} {cs : List Char}
    (h : scanLine line offset cs column depth = .ok (ts, depth')) (hcs : ∃ c ∈ cs, c ≠ ' ') : ts ≠ [] := by
  fun_induction scanLine line offset cs column depth generalizing ts with
  | case1 => simp at hcs
  | case2 column depth rest ih => exact ih h (by simpa using hcs)
  | case3 => cases h
  | case4 =>
    obtain ⟨_, -, h⟩ := Success.map_iff.mp h
    cases h
    simp

/-- A line that is not blank is opened, scanned and ended, and has a token. -/
theorem line_of_text {l next : Layout} {number : Nat} {raw : List Char} (h : l.line number raw = .ok (ts, next))
    (htext : isBlankLine (dropReturn raw) = false) :
    ∃ width front indents body depth, l.Opens number (dropReturn raw) width front indents ∧
      scanLine number l.offset ((dropReturn raw).drop width) (width + 1) l.depth = .ok (body, depth) ∧ body ≠ [] ∧
      ts = front ++ body ++ (if depth = 0 then [l.mark .newline number ((dropReturn raw).length + 1)] else []) ∧
      next = ⟨indents, depth, l.offset + raw.length + 1⟩ := by
  rcases line_cases h with ⟨hblank, -⟩ | ⟨width, front, indents, body, depth, hopen, hbody, hts, hnext⟩
  · simp [hblank] at htext
  · refine ⟨width, front, indents, body, depth, hopen, hbody, scanLine_ne_nil hbody ?_, hts, hnext⟩
    obtain ⟨c, hc, hspace, -⟩ : ∃ c ∈ dropReturn raw, c ≠ ' ' ∧ c ≠ '\t' := by simpa [isBlankLine] using htext
    refine ⟨c, ?_, hspace⟩
    rw [← List.take_append_drop width (dropReturn raw), hopen.spaces] at hc
    rcases List.mem_append.mp hc with hc | hc
    · exact absurd (List.eq_of_mem_replicate hc) hspace
    · exact hc

theorem closeBlocks_eq (width : Nat) (ws : List Nat) :
    closeBlocks width ws = ((ws.takeWhile (width < ·)).length, ws.dropWhile (width < ·)) := by
  induction ws with
  | nil => rfl
  | cons w ws ih =>
    rw [closeBlocks]
    by_cases h : width < w
    · simp [h, ih]
    · simp [h]

/-- A wider line opens one block; any other closes those that are wider, and has to meet the next one. -/
theorem reindent_cases {l : Layout} {line width : Nat} {indents : List Nat}
    (h : l.reindent line width = .ok (ts, indents)) :
    l.width < width ∧ ts = [l.mark .indent line (width + 1)] ∧ indents = width :: l.indents ∨
    width ≤ l.width ∧ indents = l.indents.dropWhile (width < ·) ∧ indents.headD 0 = width ∧
      ts = List.replicate (l.indents.takeWhile (width < ·)).length (l.mark .dedent line (width + 1)) := by
  unfold Layout.reindent at h
  split at h
  · rename_i hw
    cases h
    exact .inl ⟨hw, rfl, rfl⟩
  · rename_i hw
    rw [closeBlocks_eq] at h
    simp only at h
    split at h
    · rename_i hmet
      cases h
      exact .inr ⟨Nat.le_of_not_lt hw, rfl, hmet, rfl⟩
    · cases h

theorem reindent_balances {l : Layout} {line width : Nat} {indents : List Nat}
    (h : l.reindent line width = .ok (ts, indents)) : Balances l.indents.length ts indents.length := by
  rcases reindent_cases h with ⟨-, rfl, rfl⟩ | ⟨-, rfl, -, rfl⟩
  · exact balances_indent rfl _
  · have hsplit := congrArg List.length (List.takeWhile_append_dropWhile (p := (width < ·)) (l := l.indents))
    rw [List.length_append] at hsplit
    rw [← hsplit]
    exact balances_dedents rfl _ _

theorem Layout.Opens.balances {l : Layout} {number width : Nat} {text : List Char} {front : List Token}
    {indents : List Nat} (h : l.Opens number text width front indents) :
    Balances l.indents.length front indents.length := by
  unfold Layout.Opens at h
  split at h
  · exact reindent_balances h.2
  · obtain ⟨-, rfl, rfl⟩ := h
    exact balances_of_level (by simp) _

theorem line_balances {l next : Layout} {number : Nat} {raw : List Char} (h : l.line number raw = .ok (ts, next)) :
    Balances l.indents.length ts next.indents.length := by
  rcases line_cases h with ⟨-, rfl, rfl⟩ | ⟨width, front, indents, body, depth, hopen, hbody, rfl, rfl⟩
  · exact balances_of_level (by simp) _
  · refine (hopen.balances.append (balances_of_ordinary (fun t ht => (scanLine_lexemes hbody t ht).1) _)).append ?_
    refine balances_of_level (fun t ht => ?_) _
    rw [newline_of_ending t ht]
    decide

/-! ## All lines -/

theorem lines_balances {l last : Layout} {number : Nat} {raws : List (List Char)}
    (h : l.lines number raws = .ok (ts, last)) :
    Balances l.indents.length ts last.indents.length := by
  induction raws generalizing l number ts with
  | nil =>
    cases h
    exact balances_of_level (by simp) _
  | cons raw rest ih =>
    obtain ⟨first, next, others, hfirst, hothers, rfl⟩ := lines_cons_iff.mp h
    exact (line_balances hfirst).append (ih hothers)

theorem finish_balances (l : Layout) (count : Nat) (raw : List Char) :
    Balances l.indents.length (l.finish count raw) 0 := by
  unfold Layout.finish
  refine (Balances.append (m := l.indents.length) ?_ (balances_dedents rfl l.indents.length 0)).append ?_
  · refine balances_of_level (fun t ht => ?_) _
    split at ht
    · cases ht
    · rw [List.mem_singleton.mp ht]
      simp [Layout.mark]
  · exact balances_of_level (by simp [Layout.mark]) 0

/-- A text closes exactly the blocks that it opens, each after it was opened. -/
theorem tokenize_balances {source : String} (h : tokenize source = .ok ts) : Balances 0 ts 0 := by
  obtain ⟨inner, last, hinner, rfl⟩ := tokenize_ok_iff.mp h
  exact (lines_balances hinner).append (finish_balances last _ _)

end TillLang.Token
