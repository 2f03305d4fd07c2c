/-
  TillLang.Proofs.Token.Inside — every reported place is in the text.

  The tokens of a text and its lexical faults carry places. Each is a place in the text: on
  one of its lines, and there at a character or right behind the last one
  (`tokenize_inside`). No scan checks this; it holds since no token is longer than what is
  left of its line.
-/

import TillLang.Proofs.Token.Lines
import TillLang.Proofs.Token.Places

namespace TillLang

/-- A place in a text of the given lines: on one of them, at a character or right behind the last one. -/
structure Location.Inside (lines : List (List Char)) (l : Location) : Prop where
  line_pos : 1 ≤ l.line
  line_le : l.line ≤ lines.length
  column_pos : 1 ≤ l.column
  column_le : l.column ≤ (lines.getD (l.line - 1) []).length + 1

namespace Token

/-- The fault of a scan has one property, or its result has the other one. -/
def Yields {ε α : Type} (P : ε → Prop) (Q : α → Prop) : Except ε α → Prop
  | .ok a => Q a
  | .error e => P e

section Yields

variable {ε α β : Type} {P P' : ε → Prop} {Q Q' : α → Prop} {R : β → Prop} {r : Except ε α}

theorem Yields.mono (h : Yields P Q r) (hP : ∀ e, P e → P' e) (hQ : ∀ a, Q a → Q' a) : Yields P' Q' r := by
  cases r with
  | error e => exact hP e h
  | ok a => exact hQ a h

theorem Yields.bind {f : α → Except ε β} (h : Yields P Q r) (hf : ∀ a, Q a → Yields P R (f a)) :
    Yields P R (r >>= f) := by
  cases r with
  | error e => exact h
  | ok a => exact hf a h

theorem Yields.map {f : α → β} (h : Yields P Q r) (hf : ∀ a, Q a → R (f a)) : Yields P R (f <$> r) := by
  cases r with
  | error e => exact h
  | ok a => exact hf a h

end Yields

/-! ## One token -/

/-- The rest of a quoted literal ends on the line, and so does what is wrong with it. -/
theorem quotedTail_fits (quote : Char) (unterminated : Fault) (offset : Nat) (cs : List Char) :
    Yields (fun e => e.1 ≤ offset + cs.length) (fun r => r.1.length ≤ cs.length)
      (quotedTail quote unterminated offset cs) := by
  fun_induction quotedTail quote unterminated offset cs with
  | case1 | case2 => exact Nat.zero_le _
  | case3 offset e rest _ ih =>
    refine (ih.mono (fun e he => ?_) fun r hr => hr).map fun r hr => ?_
    · simp only [List.length_cons]
      omega
    · simpa using hr
  | case4 => exact Nat.le_add_right _ _
  | case5 => simp [Yields]
  | case6 offset c rest _ _ _ ih =>
    refine (ih.mono (fun e he => ?_) fun r hr => hr).map fun r hr => ?_
    · simp only [List.length_cons]
      omega
    · simpa using hr

/-- A token is not longer than what is left of its line, and what is wrong with it is not past the end. -/
theorem lexemeAt_fits (c : Char) (rest : List Char) :
    Yields (fun e => e.1 ≤ rest.length + 1) (fun r => r.2.length ≤ rest.length + 1) (lexemeAt c rest) := by
  have hquoted : ∀ quote unterminated, Yields (fun e => e.1 ≤ rest.length + 1) (fun r => r.1.length ≤ rest.length)
      (quotedTail quote unterminated 1 rest) := fun quote unterminated =>
    (quotedTail_fits quote unterminated 1 rest).mono (fun e he => by omega) fun r hr => hr
  unfold lexemeAt
  split
  · exact Nat.zero_le _
  split
  · simpa [Yields] using (List.takeWhile_sublist isWordChar).length_le
  split
  · exact (numberText_isPrefix (c :: rest)).length_le
  split
  · refine Yields.map (Q := fun text => text.length ≤ rest.length + 1) ?_ fun text h => h
    exact (hquoted _ _).map fun r hr => by simpa using hr
  split
  · refine Yields.map (Q := fun text => text.length ≤ rest.length + 1) ?_ fun text h => h
    refine (hquoted _ _).bind fun r hr => ?_
    simp only
    split
    · simpa [Yields] using hr
    · exact Nat.zero_le _
  · cases h : opText? (c :: rest) with
    | none => exact Nat.zero_le _
    | some text => exact (opText_isPrefix h).length_le

/-! ## One line -/

/-- A place on a line, between two columns. -/
def On (line first last : Nat) (l : Location) : Prop := l.line = line ∧ first ≤ l.column ∧ l.column ≤ last

theorem On.widen {line first first' last last' : Nat} {l : Location} (h : On line first last l) (hf : first' ≤ first)
    (hl : last ≤ last') : On line first' last' l := by
  obtain ⟨hline, hfirst, hlast⟩ := h
  exact ⟨hline, by omega, by omega⟩

/-- All places that a scan reports, in its fault or its tokens, have a property. -/
def Reports {α : Type} (P : Location → Prop) : Except Error (List Token × α) → Prop :=
  Yields (fun e => P e.location) fun r => ∀ t ∈ r.1, P t.location

theorem Reports.mono {α : Type} {P P' : Location → Prop} {r : Except Error (List Token × α)} (h : Reports P r)
    (hP : ∀ l, P l → P' l) : Reports P' r :=
  Yields.mono h (fun _ he => hP _ he) fun _ hr t ht => hP _ (hr t ht)

/-- The scan of a line goes from its column to the end of the line, and no further. -/
theorem scanLine_reports (line offset : Nat) (cs : List Char) (column depth : Nat) :
    Reports (On line column (column + cs.length)) (scanLine line offset cs column depth) := by
  fun_induction scanLine line offset cs column depth with
  | case1 => simp [Reports, Yields]
  | case2 column depth rest ih =>
    refine ih.mono fun l h => h.widen (by omega) ?_
    simp only [List.length_cons]
    omega
  | case3 column depth c rest _ distance fault hlex =>
    have hfits := lexemeAt_fits c rest
    rw [hlex] at hfits
    exact ⟨rfl, Nat.le_add_right _ _, Nat.add_le_add_left hfits column⟩
  | case4 column depth c rest _ kind text hlex token ih =>
    have hfits : text.length ≤ rest.length + 1 := by
      have := lexemeAt_fits c rest
      rwa [hlex] at this
    have hpos := List.length_pos_iff.mpr (lexemeAt_ne_nil hlex)
    have hlater : Reports (On line column (column + (c :: rest).length)) _ := ih.mono fun l h => by
      refine h.widen (by omega) ?_
      simp only [List.length_drop, List.length_cons]
      omega
    refine Yields.map hlater fun r hr t ht => ?_
    rcases List.mem_cons.mp ht with rfl | ht
    · exact ⟨rfl, Nat.le_refl _, Nat.le_add_right _ _⟩
    · exact hr t ht

theorem dropReturn_length (text : List Char) : (dropReturn text).length ≤ text.length := by
  unfold dropReturn
  split
  · simp
  · exact Nat.le_refl _

theorem indentation_reports (line : Nat) (text : List Char) :
    Yields (fun e => On line 1 (text.length + 1) e.location) (fun width => width ≤ text.length)
      (indentation line text) := by
  have hwidth := (List.takeWhile_sublist (fun c => decide (c = ' ')) (l := text)).length_le
  unfold indentation
  simp only
  split
  · exact ⟨rfl, Nat.le_add_left _ _, Nat.add_le_add_right hwidth 1⟩
  · exact hwidth

theorem reindent_reports (l : Layout) (line width : Nat) :
    Reports (On line (width + 1) (width + 1)) (l.reindent line width) := by
  have hmark : ∀ kind, On line (width + 1) (width + 1) (l.mark kind line (width + 1)).location :=
    fun kind => ⟨rfl, Nat.le_refl _, Nat.le_refl _⟩
  unfold Layout.reindent
  split
  · exact List.forall_mem_singleton.mpr (hmark .indent)
  · simp only
    split
    · intro t ht
      rw [(List.mem_replicate.mp ht).2]
      exact hmark .dedent
    · exact ⟨rfl, Nat.le_refl _, Nat.le_refl _⟩

/-- What is left of a line behind what stands in front of it reports places on the line. -/
theorem body_reports (l : Layout) (number : Nat) {raw : List Char} {width : Nat} (front : List Token)
    (next : Nat → Layout) (hwidth : width ≤ (dropReturn raw).length)
    (hfront : ∀ t ∈ front, On number 1 (raw.length + 1) t.location) :
    Reports (On number 1 (raw.length + 1)) (do
      let r ← scanLine number l.offset ((dropReturn raw).drop width) (width + 1) l.depth
      pure (front ++ r.1 ++ (if r.2 = 0 then [l.mark .newline number ((dropReturn raw).length + 1)] else []),
        next r.2)) := by
  have hraw := dropReturn_length raw
  have hbody : Reports (On number 1 (raw.length + 1))
      (scanLine number l.offset ((dropReturn raw).drop width) (width + 1) l.depth) := by
    refine (scanLine_reports ..).mono fun _ h => h.widen (by omega) ?_
    rw [List.length_drop]
    omega
  refine Yields.bind hbody fun body hbody t ht => ?_
  rcases List.mem_append.mp ht with ht | ht
  · rcases List.mem_append.mp ht with ht | ht
    · exact hfront t ht
    · exact hbody t ht
  · split at ht
    · rw [List.mem_singleton.mp ht]
      exact ⟨rfl, Nat.le_add_left _ _, Nat.add_le_add_right hraw 1⟩
    · cases ht

/-- A line reports places on itself. -/
theorem line_reports (l : Layout) (number : Nat) (raw : List Char) :
    Reports (On number 1 (raw.length + 1)) (l.line number raw) := by
  have hraw := dropReturn_length raw
  unfold Layout.line
  simp only
  split
  · simp [Reports, Yields]
  split
  · have hwidth := (indentation_reports number (dropReturn raw)).mono
      (fun e he => he.widen (Nat.le_refl 1) (Nat.add_le_add_right hraw 1)) fun _ h => h
    refine hwidth.bind fun width hwidth => ?_
    have hfront := (reindent_reports l number width).mono fun _ h =>
      h.widen (Nat.le_add_left 1 width) (Nat.add_le_add_right (hwidth.trans hraw) 1)
    exact Yields.bind hfront fun front hfront => body_reports l number front.1 (⟨front.2, ·, _⟩) hwidth hfront
  · exact body_reports l number [] (⟨l.indents, ·, _⟩) (Nat.zero_le _) (by simp)

/-! ## The text -/

/-- A place on a line of a text is a place in the text. -/
theorem On.inside {before after : List (List Char)} {raw : List Char} {l : Location}
    (h : On (before.length + 1) 1 (raw.length + 1) l) : l.Inside (before ++ raw :: after) := by
  obtain ⟨hline, hfirst, hlast⟩ := h
  refine ⟨by omega, by simp; omega, hfirst, ?_⟩
  have hget : (before ++ raw :: after).getD (l.line - 1) [] = raw := by simp [hline]
  rw [hget]
  exact hlast

/-- The lines behind some others report places in the text that they are all lines of. -/
theorem lines_reports (l : Layout) (before raws : List (List Char)) :
    Reports (Location.Inside (before ++ raws)) (l.lines (before.length + 1) raws) := by
  induction raws generalizing l before with
  | nil => simp [Layout.lines, Reports, Yields]
  | cons raw rest ih =>
    have hfirst : Reports (Location.Inside (before ++ raw :: rest)) _ :=
      (line_reports l (before.length + 1) raw).mono fun _ h => h.inside
    refine Yields.bind hfirst fun first hfirst => ?_
    have hrest := ih first.2 (before ++ [raw])
    rw [List.append_assoc, List.singleton_append, List.length_append, List.length_singleton] at hrest
    refine Yields.bind hrest fun others hothers t ht => ?_
    rcases List.mem_append.mp ht with ht | ht
    · exact hfirst t ht
    · exact hothers t ht

/-- The tokens at the end of a text stand right behind it. -/
theorem finish_inside (l : Layout) {lines : List (List Char)} (h : lines ≠ []) :
    ∀ t ∈ l.finish lines.length (lines.getLastD []), t.location.Inside lines := by
  obtain ⟨before, raw, rfl⟩ := List.eq_nil_or_concat lines |>.resolve_left h
  rw [List.concat_eq_append]
  have hmark :
    ∀ kind, (l.mark kind (before ++ [raw]).length (((before ++ [raw]).getLastD []).length + 1)).location.Inside
      (before ++ [raw]) := by
    intro kind
    refine On.inside ⟨?_, Nat.le_add_left _ _, ?_⟩ <;> simp [Layout.mark, location]
  intro t ht
  simp only [Layout.finish, List.mem_append, List.mem_replicate, List.mem_singleton] at ht
  rcases ht with (ht | ⟨-, rfl⟩) | rfl
  · split at ht
    · cases ht
    · rw [List.mem_singleton.mp ht]
      exact hmark .newline
  · exact hmark .dedent
  · exact hmark .eof

/-- The start of a text is a place in it. -/
theorem inside_start (source : List Char) : (Location.mk 1 1).Inside (splitLines source) :=
  ⟨Nat.le_refl _, List.length_pos_iff.mpr (splitLines_ne_nil source), Nat.le_refl _, Nat.le_add_left _ _⟩

/-- The tokens of a text, or its fault, are at places in the text. -/
theorem tokenize_inside (source : String) :
    Yields (fun e => e.location.Inside (splitLines source.toList))
      (fun ts => ∀ t ∈ ts, t.location.Inside (splitLines source.toList)) (tokenize source) := by
  have hlines : Reports (Location.Inside (splitLines source.toList)) _ := lines_reports .start [] _
  refine Yields.bind hlines fun inner hinner t ht => ?_
  rcases List.mem_append.mp ht with ht | ht
  · exact hinner t ht
  · exact finish_inside _ (splitLines_ne_nil _) t ht

end Token

end TillLang
