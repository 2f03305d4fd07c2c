/-
  TillLang.Proofs.Token.Lines — the lines of a text, wherever they stand.

  A text is its lines with line breaks between them, so what is put together from two texts
  by a line break has the lines of both (`splitLines_append_break`), and the lexer goes
  through the lines of the first and then through those of the second (`lines_append_eq`).

  What a line is scanned as depends on the blocks and parentheses left open in front of it,
  and not on its number or on what the text before it was: scanned further down, the same
  lines give the same tokens further down (`lines_moved`).
-/

import TillLang.Proofs.Token.Stream

namespace TillLang.Token

/-! ## Texts and their lines -/

theorem splitLines_eq_splitOn (text : List Char) : splitLines text = text.splitOn '\n' := by
  induction text with
  | nil => rfl
  | cons c rest ih =>
    rw [splitLines, ih, List.splitOn_cons_eq_if_modifyHead]
    by_cases hc : c = '\n'
    · simp [hc]
    · obtain ⟨line, others, hsplit⟩ := List.exists_cons_of_ne_nil (List.splitOn_ne_nil '\n' rest)
      simp [hc, hsplit]

theorem splitLines_ne_nil (text : List Char) : splitLines text ≠ [] := by
  rw [splitLines_eq_splitOn]
  exact List.splitOn_ne_nil '\n' text

/-- The lines of a text make up the text again. -/
theorem intercalate_splitLines (text : List Char) : ['\n'].intercalate (splitLines text) = text := by
  rw [splitLines_eq_splitOn, List.intercalate_splitOn]

/-- A line break ends the lines of what stands in front of it. -/
theorem splitLines_append_break (above below : List Char) :
    splitLines (above ++ '\n' :: below) = splitLines above ++ splitLines below := by
  simp only [splitLines_eq_splitOn, List.splitOn_append_cons_self]

/-- A text without a line break is one line. -/
theorem splitLines_of_unbroken {text : List Char} (h : '\n' ∉ text) : splitLines text = [text] := by
  rw [splitLines_eq_splitOn, List.splitOn_eq_singleton h]

/-- The lines of a text hold its characters but for the line breaks. -/
theorem mem_of_mem_splitLines {text line : List Char} (h : line ∈ splitLines text) {c : Char} (hc : c ∈ line) :
    c ∈ text ∧ c ≠ '\n' := by
  induction text generalizing line with
  | nil =>
    rw [List.mem_singleton.mp h] at hc
    cases hc
  | cons d rest ih =>
    have hlater : ∀ {other}, other ∈ splitLines rest → c ∈ other → c ∈ d :: rest ∧ c ≠ '\n' := fun hother hc =>
      ⟨List.mem_cons_of_mem _ (ih hother hc).1, (ih hother hc).2⟩
    obtain ⟨first, others, hsplit⟩ := List.exists_cons_of_ne_nil (splitLines_ne_nil rest)
    rw [hsplit] at hlater
    rw [splitLines, hsplit] at h
    split at h
    · rcases List.mem_cons.mp h with rfl | h
      · cases hc
      · exact hlater h hc
    · rename_i hd
      rcases List.mem_cons.mp h with rfl | h
      · rcases List.mem_cons.mp hc with rfl | hc
        · exact ⟨List.mem_cons_self, hd⟩
        · exact hlater List.mem_cons_self hc
      · exact hlater (List.mem_cons_of_mem _ h) hc

theorem unbroken_of_mem_splitLines {text line : List Char} (h : line ∈ splitLines text) : '\n' ∉ line :=
  fun hmem => (mem_of_mem_splitLines h hmem).2 rfl

/-- What stands on the last line of a text. -/
def lastLine (text : List Char) : List Char := (text.reverse.takeWhile (· != '\n')).reverse

/-- What stands on the first line of a text. -/
def firstLine (text : List Char) : List Char := text.takeWhile (· != '\n')

theorem lastLine_append {more : List Char} (h : '\n' ∉ more) (text : List Char) :
    lastLine (text ++ more) = lastLine text ++ more := by
  have hall : ∀ c ∈ more.reverse, (c != '\n') = true := by
    intro c hc
    rw [bne_iff_ne]
    rintro rfl
    exact h (List.mem_reverse.mp hc)
  rw [lastLine, List.reverse_append, List.takeWhile_append_of_pos hall]
  simp [lastLine]

@[simp] theorem lastLine_append_break (text : List Char) : lastLine (text ++ ['\n']) = [] := by
  simp [lastLine]

theorem firstLine_append {more : List Char} (h : '\n' ∉ more) (text : List Char) :
    firstLine (more ++ text) = more ++ firstLine text := by
  refine List.takeWhile_append_of_pos fun c hc => ?_
  rw [bne_iff_ne]
  rintro rfl
  exact h hc

/-- Texts without a line break between them share a line. -/
theorem splitLines_append {text more first second : List Char} {above below : List (List Char)}
    (h : splitLines text = above ++ [first]) (h' : splitLines more = second :: below) :
    splitLines (text ++ more) = above ++ (first ++ second) :: below := by
  induction text generalizing above first with
  | nil =>
    cases above with
    | nil =>
      obtain ⟨rfl, -⟩ := List.cons.inj h
      exact h'
    | cons _ _ => simp [splitLines] at h
  | cons c text ih =>
    rw [splitLines] at h
    rw [List.cons_append, splitLines]
    split at h
    · rename_i hc
      rw [if_pos hc]
      cases above with
      | nil => exact absurd (List.cons.inj h).2 (splitLines_ne_nil text)
      | cons _ above =>
        obtain ⟨rfl, htail⟩ := List.cons.inj h
        rw [ih htail]
        rfl
    · rename_i hc
      obtain ⟨line, others, hsplit⟩ := List.exists_cons_of_ne_nil (splitLines_ne_nil text)
      rw [hsplit] at h
      rw [if_neg hc]
      cases above with
      | nil =>
        obtain ⟨rfl, rfl⟩ := List.cons.inj h
        rw [@ih line [] hsplit]
        rfl
      | cons _ above =>
        obtain ⟨rfl, rfl⟩ := List.cons.inj h
        rw [@ih first (line :: above) hsplit]
        rfl

theorem splitLines_firstLine (text : List Char) : ∃ below, splitLines text = firstLine text :: below := by
  induction text with
  | nil => exact ⟨[], rfl⟩
  | cons c text ih =>
    obtain ⟨below, ih⟩ := ih
    rw [splitLines, ih]
    by_cases hc : c = '\n'
    · exact ⟨firstLine text :: below, by simp [hc, firstLine]⟩
    · exact ⟨below, by simp [hc, firstLine]⟩

theorem splitLines_lastLine (text : List Char) : ∃ above, splitLines text = above ++ [lastLine text] := by
  induction text using List.reverseRecOn with
  | nil => exact ⟨[], rfl⟩
  | append_singleton text c ih =>
    obtain ⟨above, ih⟩ := ih
    by_cases hc : c = '\n'
    · refine ⟨splitLines text, ?_⟩
      rw [hc, lastLine_append_break, splitLines_append_break]
      rfl
    · have hone : '\n' ∉ [c] := by simpa using Ne.symm hc
      refine ⟨above, ?_⟩
      rw [lastLine_append hone, splitLines_append ih (splitLines_of_unbroken hone)]

/-! ## The spaces in front of a line -/

theorem indentation_spaces {line width : Nat} {text : List Char} (h : indentation line text = .ok width) :
    text.take width = List.replicate width ' ' := by
  unfold indentation at h
  simp only at h
  split at h
  · cases h
  · cases h
    rw [← List.prefix_iff_eq_take.mp (List.takeWhile_prefix _)]
    refine List.eq_replicate_of_mem fun c hc => ?_
    simpa using List.all_eq_true.mp List.all_takeWhile c hc

/-- The text of a line starts behind its spaces. -/
theorem Layout.Opens.spaces {l : Layout} {number width : Nat}
    {text : List Char} {front : List Token} {indents : List Nat}
    (h : l.Opens number text width front indents) : text.take width = List.replicate width ' ' := by
  unfold Layout.Opens at h
  split at h
  · exact indentation_spaces h.1
  · simp [h.1]

/-! ## What tokens say -/

/-- What a token says, wherever it stands. -/
def content (t : Token) : Kind × String := (t.kind, t.lexeme)

/-- Tokens that say the same, one by one. -/
def Alike (us ts : List Token) : Prop := us.map content = ts.map content

variable {t : Token} {us us' ts ts' : List Token}

@[simp] theorem alike_nil : Alike us [] ↔ us = [] := List.map_eq_nil_iff

theorem alike_cons : Alike us (t :: ts) ↔ ∃ u us', us = u :: us' ∧ u.content = t.content ∧ Alike us' ts := by
  simp only [Alike, List.map_cons, List.map_eq_cons_iff]

theorem alike_append : Alike us (ts ++ ts') ↔ ∃ vs vs', us = vs ++ vs' ∧ Alike vs ts ∧ Alike vs' ts' := by
  simp only [Alike, List.map_append, List.map_eq_append_iff]

theorem Alike.append (h : Alike us ts) (h' : Alike us' ts') : Alike (us ++ us') (ts ++ ts') :=
  alike_append.mpr ⟨us, us', rfl, h, h'⟩

/-! ## Scans that start elsewhere -/

/-- A token some lines and characters further down. -/
def moved (lines offset : Nat) (t : Token) : Token := { t with line := t.line + lines, start := t.start + offset }

/-- A fault some lines further down. -/
def Error.moved (lines : Nat) (e : Error) : Error := ⟨e.fault, e.location.line + lines, e.location.column⟩

/-- What is carried to a line some characters further down. -/
def Layout.moved (offset : Nat) (l : Layout) : Layout := { l with offset := l.offset + offset }

/-- What a scan gives some lines and characters further down. -/
def movedScan {α : Type} (lines offset : Nat) (carry : α → α) (r : Except Error (List Token × α)) :
    Except Error (List Token × α) :=
  ((fun r => (r.1.map (moved lines offset), carry r.2)) <$> r).mapError (Error.moved lines)

variable (lines offset : Nat)

theorem scanLine_moved {column : Nat} (h : 0 < column) (line start depth : Nat) (cs : List Char) :
    scanLine (line + lines) (start + offset) cs column depth =
      movedScan lines offset id (scanLine line start cs column depth) := by
  fun_induction scanLine line start cs column depth with
  | case1 => simp [scanLine, movedScan]
  | case2 column depth rest ih => rw [scanLine, if_pos rfl, ih (by omega)]
  | case3 column depth c rest hc distance fault hlex =>
    rw [scanLine, if_neg hc, hlex]
    rfl
  | case4 column depth c rest hc kind text hlex token ih =>
    have hstart : start + offset + column - 1 = start + column - 1 + offset := by omega
    rw [scanLine, if_neg hc, hlex]
    simp only [ih (by omega), hstart]
    cases scanLine line start (rest.drop (text.length - 1)) (column + text.length) (depthAfter depth kind text) with
    | error e => rfl
    | ok r => rfl

theorem mark_moved (l : Layout) (kind : Kind) (line column : Nat) :
    (l.moved offset).mark kind (line + lines) (column + 1) = (l.mark kind line (column + 1)).moved lines offset := by
  simp only [Layout.mark, Layout.moved, moved, Token.mk.injEq, true_and]
  omega

theorem reindent_moved (l : Layout) (line width : Nat) :
    (l.moved offset).reindent (line + lines) width = movedScan lines offset id (l.reindent line width) := by
  unfold Layout.reindent
  rw [show (l.moved offset).width = l.width from rfl, show (l.moved offset).indents = l.indents from rfl]
  simp only [mark_moved]
  split
  · rfl
  · split
    · simp [movedScan]
    · rfl

theorem indentation_moved (line : Nat) (text : List Char) :
    indentation (line + lines) text = (indentation line text).mapError (Error.moved lines) := by
  unfold indentation
  simp only
  split <;> rfl

/-- A line gives the same tokens wherever it stands. -/
theorem line_moved (l : Layout) (number : Nat) (raw : List Char) :
    (l.moved offset).line (number + lines) raw = movedScan lines offset (·.moved offset) (l.line number raw) := by
  have hnext : (l.moved offset).offset + raw.length + 1 = l.offset + raw.length + 1 + offset := by
    simp only [Layout.moved]
    omega
  have hscan : ∀ width, scanLine (number + lines) (l.moved offset).offset ((dropReturn raw).drop width) (width + 1)
      l.depth = movedScan lines offset id
        (scanLine number l.offset ((dropReturn raw).drop width) (width + 1) l.depth) :=
    fun width => scanLine_moved lines offset (Nat.succ_pos width) ..
  unfold Layout.line
  simp only [show (l.moved offset).depth = l.depth from rfl, show (l.moved offset).indents = l.indents from rfl, hnext,
    mark_moved, indentation_moved, reindent_moved, hscan]
  split
  · simp [movedScan, Layout.moved]
  split
  · cases indentation number (dropReturn raw) with
    | error e => rfl
    | ok width =>
      simp only [Success.mapError_ok, Success.ok_bind]
      cases l.reindent number width with
      | error e => rfl
      | ok r =>
        simp only [movedScan, Success.ok_map, Success.mapError_ok, Success.ok_bind, id]
        cases scanLine number l.offset ((dropReturn raw).drop width) (width + 1) l.depth with
        | error e => rfl
        | ok s => by_cases hs : s.2 = 0 <;> simp [Layout.moved, hs]
  · simp only [Success.pure_eq, Success.ok_bind]
    cases scanLine number l.offset ((dropReturn raw).drop 0) (0 + 1) l.depth with
    | error e => rfl
    | ok s => by_cases hs : s.2 = 0 <;> simp [movedScan, Layout.moved, hs]

/-- Lines give the same tokens wherever they stand. -/
theorem lines_moved (l : Layout) (number : Nat) (raws : List (List Char)) :
    (l.moved offset).lines (number + lines) raws = movedScan lines offset (·.moved offset) (l.lines number raws) := by
  induction raws generalizing l number with
  | nil => rfl
  | cons raw rest ih =>
    rw [Layout.lines, Layout.lines, line_moved]
    cases l.line number raw with
    | error e => rfl
    | ok r =>
      obtain ⟨first, next⟩ := r
      simp only [movedScan, Success.ok_map, Success.mapError_ok, Success.ok_bind] at ih ⊢
      rw [Nat.add_right_comm, ih]
      cases next.lines (number + 1) rest with
      | error e => rfl
      | ok s => simp

/-! ## Lines after one another -/

theorem lines_append_eq (l : Layout) (number : Nat) (as bs : List (List Char)) :
    l.lines number (as ++ bs) = (do
      let r ← l.lines number as
      let s ← r.2.lines (number + as.length) bs
      return (r.1 ++ s.1, s.2)) := by
  induction as generalizing l number with
  | nil =>
    simp only [List.nil_append, Layout.lines, List.length_nil, Nat.add_zero, Success.ok_bind]
    cases l.lines number bs <;> rfl
  | cons a as ih =>
    simp only [List.cons_append, Layout.lines, List.length_cons]
    cases l.line number a with
    | error e => rfl
    | ok r =>
      obtain ⟨first, next⟩ := r
      have hnumber : number + (as.length + 1) = number + 1 + as.length := by omega
      simp only [Success.ok_bind, ih, hnumber]
      cases next.lines (number + 1) as with
      | error e => rfl
      | ok s =>
        simp only [Success.ok_bind, Success.pure_eq]
        cases s.2.lines (number + 1 + as.length) bs <;> simp

theorem lines_append_iff {l last : Layout} {number : Nat} {as bs : List (List Char)} {ts : List Token} :
    l.lines number (as ++ bs) = .ok (ts, last) ↔ ∃ us next vs, l.lines number as = .ok (us, next) ∧
      next.lines (number + as.length) bs = .ok (vs, last) ∧ ts = us ++ vs := by
  simp only [lines_append_eq, Success.bind_iff, Success.pure_eq, Except.ok.injEq, Prod.mk.injEq]
  constructor
  · rintro ⟨⟨us, next⟩, has, ⟨vs, _⟩, hbs, rfl, rfl⟩
    exact ⟨us, next, vs, has, hbs, rfl⟩
  · rintro ⟨us, next, vs, has, hbs, rfl⟩
    exact ⟨(us, next), has, (vs, last), hbs, rfl, rfl⟩

end TillLang.Token
