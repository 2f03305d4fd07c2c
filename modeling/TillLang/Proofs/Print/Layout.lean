/-
  TillLang.Proofs.Print.Layout — the block structure of printed lines.

  A printed line stands at a level, four spaces for each. `Lays` says of the lines of a statement,
  or of several, what tokens they have between the tokens that their first line leads in with and
  the ends of the blocks that their last line leaves open; those come with the next line, or at
  the end of the text. Lines are laid after one another by `Lays.append`, and a block under its
  header by `Lays.block`.
-/

import TillLang.Proofs.Token.Lines
import TillLang.Proofs.Token.Written
import TillLang.Syntax.Printer
import TillLang.Token.Layout

namespace TillLang.Print

open Token (Writes Bounded Then Layout Neat)
open Syntax (pad)

/-- The widths of the blocks around a line at a level, innermost first. -/
def levels : Nat → List Nat
  | 0 => []
  | m + 1 => 4 * (m + 1) :: levels m

/-- All parentheses are closed, and blocks are open down to a level. -/
structure AtLevel (l : Layout) (m : Nat) : Prop where
  depth : l.depth = 0
  indents : l.indents = levels m

/-- The tokens in front of a line at a level, after a line that has left blocks open down to `m`. -/
inductive Marks (m level : Nat) : List Token → Prop
  | deeper {t : Token} (hlevel : level = m + 1) (ht : t.Stands .indent) : Marks m level [t]
  | back {ts : List Token} (hlevel : level ≤ m) (hlen : ts.length = m - level) (hts : ∀ t ∈ ts, t.Stands .dedent) :
      Marks m level ts

/-- Unbroken lines, at a level or deeper, and the tokens they have once their blocks are closed. -/
structure Lays (level : Nat) (lines : List String) (P : List Token → Prop) : Prop where
  unbroken : ∀ line ∈ lines, '\n' ∉ line.toList
  lays : ∀ {l : Layout} {m : Nat} (number : Nat), AtLevel l m → level ≤ m + 1 → ∃ marks own m' l',
    l.lines number (lines.map String.toList) = .ok (marks ++ own, l') ∧
      Marks m level marks ∧ AtLevel l' m' ∧ level ≤ m' ∧
      ∀ ends : List Token, ends.length = m' - level → (∀ t ∈ ends, t.Stands .dedent) → P (own ++ ends)

/-- A text starts with no blank. -/
def Opens (text : List Char) : Prop := ∃ c rest, text = c :: rest ∧ c ≠ ' ' ∧ c ≠ '\t'

variable {level m : Nat} {l : Layout} {P Q : List Token → Prop}

/-! ## One line -/

theorem Opens.append {text : List Char} (h : Opens text) (more : List Char) : Opens (text ++ more) := by
  obtain ⟨c, rest, rfl, hc⟩ := h
  exact ⟨c, rest ++ more, rfl, hc⟩

@[simp] theorem length_levels (m : Nat) : (levels m).length = m := by
  induction m with
  | zero => rfl
  | succ m ih => rw [levels, List.length_cons, ih]

theorem headD_levels (m : Nat) : (levels m).headD 0 = 4 * m := by
  cases m <;> rfl

theorem closeBlocks_levels (h : level ≤ m) : Token.closeBlocks (4 * level) (levels m) = (m - level, levels level) := by
  induction m with
  | zero =>
    obtain rfl : level = 0 := by omega
    rfl
  | succ m ih =>
    rw [levels, Token.closeBlocks]
    by_cases hlt : level ≤ m
    · rw [if_pos (by omega), ih hlt]
      simp only [Prod.mk.injEq, and_true]
      omega
    · obtain rfl : level = m + 1 := by omega
      rw [if_neg (by omega), Nat.sub_self, levels]

theorem stands_mark (l : Layout) (line column : Nat) :
    (l.mark .indent line column).Stands .indent ∧ (l.mark .dedent line column).Stands .dedent ∧
      (l.mark .newline line column).Stands .newline ∧ (l.mark .eof line column).Stands .finish :=
  ⟨rfl, rfl, rfl, rfl⟩

theorem reindent_atLevel (hl : AtLevel l m) (hlevel : level ≤ m + 1) (number : Nat) :
    ∃ marks, l.reindent number (4 * level) = .ok (marks, levels level) ∧ Marks m level marks := by
  have hwidth : l.width = 4 * m := by rw [Layout.width, hl.indents, headD_levels]
  unfold Layout.reindent
  rw [hwidth]
  by_cases hdeep : level = m + 1
  · subst hdeep
    rw [if_pos (by omega), hl.indents]
    exact ⟨_, rfl, .deeper rfl (stands_mark l _ _).1⟩
  · rw [if_neg (by omega), hl.indents, closeBlocks_levels (by omega)]
    simp only
    rw [if_pos (headD_levels level)]
    refine ⟨_, rfl, .back (by omega) (List.length_replicate) fun t ht => ?_⟩
    rw [(List.mem_replicate.mp ht).2]
    exact (stands_mark l _ _).2.1

theorem toList_pad (level : Nat) : (pad level).toList = List.replicate (4 * level) ' ' := by
  rw [pad, String.toList_ofList]

/-- A line at a level that starts with a text. -/
theorem line_writes {text : List Char} (hw : Writes Bounded text P) (ho : Opens text) (hl : AtLevel l m)
    (hlevel : level ≤ m + 1) (number : Nat) :
    ∃ marks ts eol l', l.line number ((pad level).toList ++ text) = .ok (marks ++ (ts ++ [eol]), l') ∧
      Marks m level marks ∧ P ts ∧ eol.Stands .newline ∧ AtLevel l' level := by
  obtain ⟨c, rest, hfirst, hc⟩ := ho
  have hne : text ≠ [] := by simp [hfirst]
  have hreturn : Token.dropReturn ((pad level).toList ++ text) = (pad level).toList ++ text := by
    rw [Token.dropReturn, if_neg]
    rw [List.getLast?_append_of_ne_nil _ hne]
    exact hw.neat.2
  have hblank : Token.isBlankLine ((pad level).toList ++ text) = false := by
    simp [Token.isBlankLine, hfirst, hc]
  have htake : (((pad level).toList ++ text).takeWhile (· = ' ')).length = 4 * level := by
    rw [toList_pad, List.takeWhile_append_of_pos (by simp), hfirst]
    simp [hc.1]
  have hdrop : ((pad level).toList ++ text).drop (4 * level) = text := by
    rw [toList_pad, List.drop_left' (List.length_replicate)]
  have hindent : Token.indentation number ((pad level).toList ++ text) = .ok (4 * level) := by
    unfold Token.indentation
    simp only [htake, hdrop]
    rw [if_neg]
    simp [hfirst, hc.2]
  obtain ⟨marks, hmarks, hm⟩ := reindent_atLevel hl hlevel number
  obtain ⟨ts, column', hts, hscan⟩ := hw.scans [] (by simp [Bounded]) number l.offset (4 * level + 1) 0
  rw [List.append_nil, Token.scanLine] at hscan
  refine ⟨marks, ts, l.mark .newline number (((pad level).toList ++ text).length + 1),
    ⟨levels level, 0, l.offset + ((pad level).toList ++ text).length + 1⟩, ?_, hm, hts, (stands_mark l number _).2.2.1,
    ⟨rfl, rfl⟩⟩
  have hopen : l.Opens number ((pad level).toList ++ text) (4 * level) marks (levels level) := by
    unfold Token.Layout.Opens
    rw [if_pos hl.depth]
    exact ⟨hindent, hmarks⟩
  have hbody : Token.scanLine number l.offset (((pad level).toList ++ text).drop (4 * level)) (4 * level + 1) l.depth =
      .ok (ts, 0) := by
    rw [hdrop, hl.depth, hscan]
    simp
  rw [← hreturn] at hblank hopen hbody
  rw [Token.line_of_opens hblank hopen hbody, hreturn, if_pos rfl, List.append_assoc]

/-! ## Lines after one another -/

theorem Lays.imp {lines : List String} (h : Lays level lines P) (hP : ∀ ts, P ts → Q ts) : Lays level lines Q := by
  refine ⟨h.unbroken, fun number hl hlevel => ?_⟩
  obtain ⟨marks, own, m', l', hlines, hmarks, hl', hm', hends⟩ := h.lays number hl hlevel
  exact ⟨marks, own, m', l', hlines, hmarks, hl', hm', fun ends hlen hends' => hP _ (hends ends hlen hends')⟩

theorem Lays.append {as bs : List String} (ha : Lays level as P) (hb : Lays level bs Q) :
    Lays level (as ++ bs) (Then P Q) := by
  refine ⟨fun line hline => (List.mem_append.mp hline).elim (ha.unbroken line) (hb.unbroken line),
    fun number hl hlevel => ?_⟩
  obtain ⟨marks, own, m₁, l₁, hlines, hmarks, hl₁, hm₁, hends⟩ := ha.lays number hl hlevel
  obtain ⟨marks', own', m₂, l₂, hlines', hmarks', hl₂, hm₂, hends'⟩ :=
    hb.lays (number + (as.map String.toList).length) hl₁ (by omega)
  refine ⟨marks, own ++ (marks' ++ own'), m₂, l₂, ?_, hmarks, hl₂, hm₂, fun ends hlen hall => ?_⟩
  · rw [List.map_append, Token.lines_append_iff.mpr ⟨_, _, _, hlines, hlines', rfl⟩, List.append_assoc]
  · -- The blocks of the first lines are closed by the tokens in front of the second ones.
    cases hmarks' with
    | deeper hlevel' => omega
    | back _ hlen' hall' =>
      refine ⟨own ++ marks', own' ++ ends, ?_, hends marks' hlen' hall', hends' ends hlen hall⟩
      simp only [List.append_assoc]

/-- A line of its own. -/
def Ended (P : List Token → Prop) (ts : List Token) : Prop := ∃ us eol, ts = us ++ [eol] ∧ P us ∧ eol.Stands .newline

/-- A header and the block under it. -/
def Heads (P Q : List Token → Prop) (ts : List Token) : Prop :=
  ∃ us eol ind vs ded, ts = us ++ eol :: ind :: (vs ++ [ded]) ∧ P us ∧ eol.Stands .newline ∧ ind.Stands .indent ∧ Q vs ∧
    ded.Stands .dedent

section Line

variable {text : String} (hw : Writes Bounded text.toList P) (ho : Opens text.toList)
include hw

theorem unbroken_line : '\n' ∉ (pad level ++ text).toList := by
  rw [String.toList_append, toList_pad]
  simp [hw.neat.1]

include ho

theorem lays_line : Lays level [pad level ++ text] (Ended P) := by
  refine ⟨List.forall_mem_singleton.mpr (unbroken_line hw), fun number hl hlevel => ?_⟩
  obtain ⟨marks, ts, eol, l', hline, hmarks, hts, heol, hl'⟩ := line_writes hw ho hl hlevel number
  refine ⟨marks, ts ++ [eol], level, l', ?_, hmarks, hl', Nat.le_refl _, fun ends hlen _ => ?_⟩
  · rw [List.map_singleton, String.toList_append, Layout.lines, hline]
    simp [Layout.lines]
  · rw [Nat.sub_self, List.length_eq_zero_iff] at hlen
    rw [hlen, List.append_nil]
    exact ⟨ts, eol, rfl, hts, heol⟩

/-- A block is laid under its header. -/
theorem Lays.block {lines : List String} (h : Lays (level + 1) lines Q) :
    Lays level ((pad level ++ text) :: lines) (Heads P Q) := by
  refine ⟨List.forall_mem_cons.mpr ⟨unbroken_line hw, h.unbroken⟩, fun number hl hlevel => ?_⟩
  obtain ⟨marks, ts, eol, l₁, hline, hmarks, hts, heol, hl₁⟩ := line_writes hw ho hl hlevel number
  obtain ⟨marks', own, m', l', hlines, hmarks', hl', hm', hends⟩ := h.lays (number + 1) hl₁ (Nat.le_refl _)
  cases hmarks' with
  | back hlevel' => omega
  | @deeper ind _ hind =>
    refine ⟨marks, ts ++ eol :: ind :: own, m', l', ?_, hmarks, hl', by omega, fun ends hlen hall => ?_⟩
    · rw [List.map_cons, String.toList_append, Layout.lines, hline]
      simp [hlines]
    · -- The last of the ends closes the block itself.
      rcases List.eq_nil_or_concat' ends with rfl | ⟨ends, ded, rfl⟩
      · simp only [List.length_nil] at hlen
        omega
      · simp only [List.length_append, List.length_singleton] at hlen
        have hown := hends ends (by omega) fun t ht => hall t (List.mem_append_left _ ht)
        exact ⟨ts, eol, ind, own ++ ends, ded, by simp, hts, heol, hind, hown, hall ded (by simp)⟩

end Line

/-! ## A whole text -/

theorem toList_joinLines (line : String) (lines : List String) :
    (Text.joinLines (line :: lines)).toList = line.toList ++ '\n' :: (Text.joinLines lines).toList := by
  simp [Text.joinLines, String.toList_append, String.toList_join]

/-- Unbroken lines are the lines of their text, which ends with an empty line. -/
theorem splitLines_joinLines {lines : List String} (h : ∀ line ∈ lines, '\n' ∉ line.toList) :
    Token.splitLines (Text.joinLines lines).toList = lines.map String.toList ++ [[]] := by
  induction lines with
  | nil => rfl
  | cons line lines ih =>
    obtain ⟨hline, h⟩ := List.forall_mem_cons.mp h
    rw [toList_joinLines, Token.splitLines_append_break, Token.splitLines_of_unbroken hline, ih h]
    rfl

/-- At the end of a text all blocks that its lines have left open are closed. -/
theorem tokenize_lays {lines : List String} (h : Lays 0 lines P) :
    ∃ ts last, tokenize (Text.joinLines lines) = .ok (ts ++ [last]) ∧ P ts ∧ last.Stands .finish := by
  obtain ⟨marks, own, m, l, hlines, hmarks, hl, -, hends⟩ := h.lays 1 (l := Layout.start) (m := 0) ⟨rfl, rfl⟩ (by omega)
  obtain rfl : marks = [] := by
    cases hmarks with
    | deeper hlevel => omega
    | back _ hlen => exact List.length_eq_zero_iff.mp hlen
  have hblank :
    l.lines (1 + (lines.map String.toList).length) [[]] = .ok ([], { l with offset := l.offset + 0 + 1 }) := rfl
  have hsplit := splitLines_joinLines h.unbroken
  generalize hcount : (lines.map String.toList ++ [[]]).length = count
  generalize hraw : (lines.map String.toList ++ [[]]).getLastD [] = raw
  refine ⟨own ++ List.replicate m (Layout.mark { l with offset := l.offset + 0 + 1 } .dedent count (raw.length + 1)),
    Layout.mark { l with offset := l.offset + 0 + 1 } .eof count (raw.length + 1), ?_, ?_, (stands_mark _ _ _).2.2.2⟩
  · have hall := Token.lines_append_iff.mpr ⟨_, _, _, hlines, hblank, rfl⟩
    rw [← hsplit] at hall
    refine Token.tokenize_ok_iff.mpr ⟨_, _, hall, ?_⟩
    simp only [hsplit, hcount, hraw, Layout.finish, hl.depth, hl.indents, length_levels, if_true, List.nil_append,
      List.append_nil, List.append_assoc]
  · refine hends _ (by simp) fun t ht => ?_
    rw [(List.mem_replicate.mp ht).2]
    exact (stands_mark _ _ _).2.1

end TillLang.Print
