/-
  TillLang.Proofs.Token.Offside — which blocks are open at a line.

  The widths of the lines that start a statement say which blocks are open: one for each positive
  width that no later line has gone below (`openLevels`). The lexer keeps these widths on a stack,
  from which it takes and to which it adds at one end only; that the stack holds exactly them is its
  invariant (`Holds`), with the widths on it in strict order. A line that is less wide than the one
  before it has to have the width of an open block, or none at all.

  Proved: in a text that has tokens, these lines are those that are not blank and have no open
  parenthesis in front of them (`mem_statementLines_iff`). In front of the text of such a line the
  blocks opened and not closed are as many as the widths say, and the lexer reports a wrong width
  exactly when there is one, for the first of them (`blocks_follow_widths`).
-/

import Mathlib.Data.List.GetD
import Mathlib.Order.Interval.Finset.Nat
import TillLang.Proofs.Token.Blocks
import TillLang.Proofs.Token.Inside

namespace TillLang.Token

/-! ## Widths and the stack -/

/-- The positive widths in a row that no later one goes below. -/
def openLevels (ws : List Nat) : Finset Nat :=
  ((Finset.range ws.length).filter fun j =>
    0 < ws.getD j 0 ∧ ∀ i ∈ Finset.Ico j ws.length, ws.getD j 0 ≤ ws.getD i 0).image (ws.getD · 0)

/-- A width that goes back to no open block, after the given ones. -/
def Misfits (ws : List Nat) (w : Nat) : Prop := w < ws.getLastD 0 ∧ w ≠ 0 ∧ w ∉ openLevels ws

instance (ws : List Nat) (w : Nat) : Decidable (Misfits ws w) := inferInstanceAs (Decidable (_ ∧ _))

/-- The stack after lines of the given widths. -/
structure Holds (indents ws : List Nat) : Prop where
  ordered : indents.Pairwise (· > ·)
  levels : ∀ v, v ∈ indents ↔ v ∈ openLevels ws
  last : indents.headD 0 = ws.getLastD 0

variable {ws indents : List Nat} {v w : Nat}

theorem mem_openLevels : v ∈ openLevels ws ↔ 0 < v ∧ ∃ front back, ws = front ++ v :: back ∧ ∀ u ∈ back, v ≤ u := by
  simp only [openLevels, Finset.mem_image, Finset.mem_filter, Finset.mem_range, Finset.mem_Ico]
  constructor
  · rintro ⟨j, ⟨hj, hpos, hleast⟩, rfl⟩
    have hget : ws.getD j 0 = ws[j] := List.getD_eq_getElem _ _ hj
    rw [hget] at hpos hleast ⊢
    refine ⟨hpos, ws.take j, ws.drop (j + 1), by rw [← List.drop_eq_getElem_cons, List.take_append_drop],
      fun u hu => ?_⟩
    obtain ⟨i, hi, rfl⟩ := List.getElem_of_mem hu
    rw [List.length_drop] at hi
    have := hleast (j + 1 + i) ⟨by omega, by omega⟩
    rwa [List.getD_eq_getElem _ _ (by omega), ← List.getElem_drop] at this
  · rintro ⟨hpos, front, back, rfl, hleast⟩
    have hget : (front ++ v :: back).getD front.length 0 = v := by simp
    refine ⟨front.length, ⟨by simp, by rwa [hget], fun i hi => ?_⟩, hget⟩
    rw [hget, List.getD_eq_getElem _ _ hi.2]
    have hmem : (front ++ v :: back)[i] ∈ v :: back := by
      rw [List.getElem_append_right hi.1]
      exact List.getElem_mem _
    rcases List.mem_cons.mp hmem with heq | hmem
    · exact Nat.le_of_eq heq.symm
    · exact hleast _ hmem

/-- One more line leaves the blocks open that it does not go below, and opens its own. -/
theorem mem_openLevels_concat : v ∈ openLevels (ws ++ [w]) ↔ v ∈ openLevels ws ∧ v ≤ w ∨ v = w ∧ 0 < w := by
  simp only [mem_openLevels]
  constructor
  · rintro ⟨hpos, front, back, hsplit, hleast⟩
    rcases List.eq_nil_or_concat' back with rfl | ⟨back, u, rfl⟩
    · obtain ⟨-, hlast⟩ := List.append_inj' hsplit rfl
      obtain rfl : w = v := by simpa using hlast
      exact .inr ⟨rfl, hpos⟩
    · rw [← List.cons_append, ← List.append_assoc] at hsplit
      obtain ⟨rfl, hlast⟩ := List.append_inj' hsplit rfl
      obtain rfl : w = u := by simpa using hlast
      exact .inl ⟨⟨hpos, front, back, rfl, fun u hu => hleast u (by simp [hu])⟩, hleast w (by simp)⟩
  · rintro (⟨⟨hpos, front, back, rfl, hleast⟩, hle⟩ | ⟨rfl, hpos⟩)
    · refine ⟨hpos, front, back ++ [w], by simp, fun u hu => ?_⟩
      rcases List.mem_append.mp hu with hu | hu
      · exact hleast u hu
      · rwa [List.mem_singleton.mp hu]
    · exact ⟨hpos, ws, [], rfl, by simp⟩

/-- In strict order, what is left when the greater widths are dropped is all that is not greater. -/
theorem mem_dropWhile_of_ordered (h : indents.Pairwise (· > ·)) :
    v ∈ indents.dropWhile (w < ·) ↔ v ∈ indents ∧ v ≤ w := by
  induction indents with
  | nil => simp
  | cons u indents ih =>
    obtain ⟨hu, h⟩ := List.pairwise_cons.mp h
    rw [List.dropWhile_cons]
    split
    · rename_i hw
      have hw : w < u := by simpa using hw
      rw [ih h, List.mem_cons]
      constructor
      · exact fun ⟨hv, hle⟩ => ⟨.inr hv, hle⟩
      · rintro ⟨rfl | hv, hle⟩
        · omega
        · exact ⟨hv, hle⟩
    · rename_i hw
      have hw : u ≤ w := by simpa using hw
      refine ⟨fun hv => ⟨hv, ?_⟩, fun hv => hv.1⟩
      rcases List.mem_cons.mp hv with rfl | hv
      · exact hw
      · exact Nat.le_trans (Nat.le_of_lt (hu v hv)) hw

theorem le_headD_of_ordered (h : indents.Pairwise (· > ·)) (hv : v ∈ indents) : v ≤ indents.headD 0 := by
  cases indents with
  | nil => cases hv
  | cons u indents =>
    rcases List.mem_cons.mp hv with rfl | hv
    · exact Nat.le_refl _
    · exact Nat.le_of_lt ((List.pairwise_cons.mp h).1 v hv)

theorem Holds.card (h : Holds indents ws) : (openLevels ws).card = indents.length := by
  have hset : openLevels ws = indents.toFinset := by
    ext v
    rw [List.mem_toFinset, h.levels]
  rw [hset, List.toFinset_card_of_nodup]
  exact h.ordered.imp fun hgt => Nat.ne_of_gt hgt

theorem Holds.push (h : Holds indents ws) (hw : indents.headD 0 < w) : Holds (w :: indents) (ws ++ [w]) where
  ordered := List.pairwise_cons.mpr ⟨fun v hv => Nat.lt_of_le_of_lt (le_headD_of_ordered h.ordered hv) hw, h.ordered⟩
  levels v := by
    rw [mem_openLevels_concat, List.mem_cons, ← h.levels]
    constructor
    · rintro (rfl | hv)
      · exact .inr ⟨rfl, by omega⟩
      · exact .inl ⟨hv, Nat.le_of_lt (Nat.lt_of_le_of_lt (le_headD_of_ordered h.ordered hv) hw)⟩
    · rintro (⟨hv, -⟩ | ⟨rfl, -⟩)
      · exact .inr hv
      · exact .inl rfl
  last := by simp

theorem Holds.close (h : Holds indents ws) (hmet : (indents.dropWhile (w < ·)).headD 0 = w) :
    Holds (indents.dropWhile (w < ·)) (ws ++ [w]) where
  ordered := h.ordered.sublist (List.dropWhile_sublist _)
  levels v := by
    rw [mem_openLevels_concat, mem_dropWhile_of_ordered h.ordered, h.levels]
    refine ⟨.inl, ?_⟩
    rintro (hv | ⟨rfl, hpos⟩)
    · exact hv
    · -- A positive width that is met is that of a block on the stack.
      rw [← h.levels, ← mem_dropWhile_of_ordered h.ordered]
      cases hleft : indents.dropWhile (v < ·) with
      | nil =>
        rw [hleft] at hmet
        exact absurd hmet (Nat.ne_of_lt hpos)
      | cons u rest =>
        rw [hleft] at hmet
        exact hmet ▸ List.mem_cons_self
  last := by rw [hmet]; simp

/-- The stack meets a width that is not greater than the last one, unless that misfits. -/
theorem Holds.meets_iff (h : Holds indents ws) (hw : w ≤ indents.headD 0) :
    (indents.dropWhile (w < ·)).headD 0 = w ↔ ¬ Misfits ws w := by
  have hmem : w ∈ indents.dropWhile (w < ·) ↔ w ∈ openLevels ws := by
    rw [mem_dropWhile_of_ordered h.ordered, h.levels]
    exact and_iff_left (Nat.le_refl w)
  constructor
  · rintro hmet ⟨-, hpos, hnot⟩
    cases hleft : indents.dropWhile (w < ·) with
    | nil =>
      rw [hleft] at hmet
      exact hpos hmet.symm
    | cons u rest =>
      rw [hleft] at hmet hmem
      exact hnot (hmem.mp (hmet ▸ List.mem_cons_self))
  · intro hfits
    have hzero : ∀ v ∈ indents.dropWhile (w < ·), 0 < v ∧ v ≤ w := fun v hv => by
      obtain ⟨hv, hle⟩ := (mem_dropWhile_of_ordered h.ordered).mp hv
      exact ⟨(mem_openLevels.mp ((h.levels v).mp hv)).1, hle⟩
    have hcases : w = 0 ∨ w ∈ indents.dropWhile (w < ·) := by
      rw [hmem]
      by_contra hneither
      obtain ⟨hpos, hnot⟩ := not_or.mp hneither
      refine hfits ⟨Nat.lt_of_le_of_ne (h.last ▸ hw) fun heq => ?_, hpos, hnot⟩
      -- The last width itself is on the stack, unless it is zero.
      rw [← h.last] at heq
      cases indents with
      | nil => exact hpos heq
      | cons u indents => exact hnot ((h.levels w).mp (heq ▸ List.mem_cons_self))
    cases hleft : indents.dropWhile (w < ·) with
    | nil =>
      rw [hleft] at hcases
      rcases hcases with rfl | hcases
      · rfl
      · cases hcases
    | cons u rest =>
      have hle := le_headD_of_ordered (v := w) (h.ordered.sublist (List.dropWhile_sublist (w < ·)))
      rw [hleft] at hzero hcases hle
      obtain ⟨hpos, hu⟩ := hzero u List.mem_cons_self
      rcases hcases with rfl | hcases
      · omega
      · exact Nat.le_antisymm hu (hle hcases)

/-! ## Lines that start a statement -/

/-- A line that starts a statement: its number, and the number of spaces in front of it. -/
structure Header where
  line : Nat
  width : Nat
  deriving DecidableEq, Repr

/-- The lines that start a statement among those from number `number` on, with `depth` parentheses open in front of
them, and a fault that has to do with no width. Those behind the fault are left out; the line of the fault is one of
them if its width comes first. -/
def headers (number depth : Nat) : List (List Char) → List Header × Option Error
  | [] => ([], none)
  | raw :: rest =>
    let text := dropReturn raw
    if isBlankLine text then headers (number + 1) depth rest
    else match if depth = 0 then indentation number text else pure 0 with
      | .error e => ([], some e)
      | .ok width =>
        let own := if depth = 0 then [⟨number, width⟩] else []
        match scanLine number 0 (text.drop width) (width + 1) depth with
        | .error e => (own, some e)
        | .ok (_, depth) =>
          let (others, fault) := headers (number + 1) depth rest
          (own ++ others, fault)

/-- The widths of some lines. -/
def widths (hs : List Header) : List Nat := hs.map Header.width

/-- The fault for a line whose width goes back to no open block. -/
def Header.misfit (h : Header) : Error := ⟨.inconsistentDedent (h.width + 1), h.line, h.width + 1⟩

/-- The stack after some lines. -/
def restack (indents : List Nat) : List Header → Except Error (List Nat)
  | [] => .ok indents
  | h :: hs => do
    let indents ← Prod.snd <$> (⟨indents, 0, 0⟩ : Layout).reindent h.line h.width
    restack indents hs

/-- The fault of what has failed. -/
def faultOf {α : Type} : Except Error α → Option Error
  | .error e => some e
  | .ok _ => none

/-- The stack decides about a line by its width. -/
theorem reindent_of_holds {l : Layout} (h : Holds l.indents ws) (hd : Header) :
    Misfits ws hd.width ∧ l.reindent hd.line hd.width = .error hd.misfit ∨
    ¬ Misfits ws hd.width ∧ ∃ ts indents, l.reindent hd.line hd.width = .ok (ts, indents) ∧
      Holds indents (ws ++ [hd.width]) := by
  unfold Layout.reindent
  by_cases hw : l.width < hd.width
  · rw [if_pos hw]
    refine .inr ⟨fun hm => ?_, _, _, rfl, h.push hw⟩
    have hlast := h.last
    have := hm.1
    unfold Layout.width at hw
    omega
  · rw [if_neg hw, closeBlocks_eq]
    simp only
    have hmeets := h.meets_iff (Nat.le_of_not_lt hw)
    by_cases hm : Misfits ws hd.width
    · rw [if_neg (fun hmet => hmeets.mp hmet hm)]
      exact .inl ⟨hm, rfl⟩
    · have hmet := hmeets.mpr hm
      rw [if_pos hmet]
      exact .inr ⟨hm, _, _, rfl, h.close hmet⟩

/-- The line is the first one whose width goes back to no open block, after the given widths. -/
def IsFirstMisfit (ws : List Nat) (hs : List Header) (h : Header) : Prop :=
  ∃ before after, hs = before ++ h :: after ∧ Misfits (ws ++ widths before) h.width ∧
    ∀ front h' back, before = front ++ h' :: back → ¬ Misfits (ws ++ widths front) h'.width

theorem isFirstMisfit_cons {hs : List Header} {h g : Header} :
    IsFirstMisfit ws (g :: hs) h ↔ Misfits ws g.width ∧ h = g ∨
      ¬ Misfits ws g.width ∧ IsFirstMisfit (ws ++ [g.width]) hs h := by
  constructor
  · rintro ⟨before, after, hsplit, hm, hfirst⟩
    cases before with
    | nil =>
      obtain ⟨rfl, -⟩ := List.cons.inj hsplit
      exact .inl ⟨by simpa [widths] using hm, rfl⟩
    | cons _ before =>
      obtain ⟨rfl, rfl⟩ := List.cons.inj hsplit
      refine .inr ⟨by simpa [widths] using hfirst [] g before rfl, before, after, rfl, by simpa [widths] using hm, ?_⟩
      rintro front h' back rfl
      simpa [widths] using hfirst (g :: front) h' back rfl
  · rintro (⟨hm, rfl⟩ | ⟨hfits, before, after, rfl, hm, hfirst⟩)
    · exact ⟨[], hs, rfl, by simpa [widths] using hm, by simp⟩
    · refine ⟨g :: before, after, rfl, by simpa [widths] using hm, fun front h' back hsplit => ?_⟩
      cases front with
      | nil =>
        obtain ⟨rfl, -⟩ := List.cons.inj hsplit
        simpa [widths] using hfits
      | cons _ front =>
        obtain ⟨rfl, hbefore⟩ := List.cons.inj hsplit
        simpa [widths] using hfirst front h' back hbefore

/-- The stack fails at the first line that misfits. -/
theorem restack_fault {hs : List Header} (h : Holds indents ws) {e : Error} :
    faultOf (restack indents hs) = some e ↔ ∃ g, IsFirstMisfit ws hs g ∧ e = g.misfit := by
  induction hs generalizing indents ws with
  | nil => simp [restack, faultOf, IsFirstMisfit]
  | cons g hs ih =>
    simp only [isFirstMisfit_cons]
    rcases reindent_of_holds (l := ⟨indents, 0, 0⟩) h g with ⟨hm, herror⟩ | ⟨hfits, ts, indents', hok, hholds⟩
    · simp [restack, herror, faultOf, hm, eq_comm]
    · simp only [restack, hok, Success.ok_map, Success.ok_bind,
        ih hholds, hfits, false_and, not_false_eq_true, true_and,
        false_or]

/-! ## Other faults -/

theorem quotedTail_fault {quote : Char} {unterminated : Fault} (h : ∀ column, unterminated ≠ .inconsistentDedent column)
    (offset : Nat) (cs : List Char) : Yields (fun e => ∀ column, e.2 ≠ .inconsistentDedent column) (fun _ => True)
      (quotedTail quote unterminated offset cs) := by
  fun_induction quotedTail quote unterminated offset cs with
  | case1 | case2 => exact h
  | case3 _ _ _ _ ih => exact ih.map fun _ _ => trivial
  | case4 => simp [Yields]
  | case5 => trivial
  | case6 _ _ _ _ _ _ ih => exact ih.map fun _ _ => trivial

/-- What is wrong with a token has to do with no width. -/
theorem lexemeAt_fault (c : Char) (rest : List Char) :
    Yields (fun e => ∀ column, e.2 ≠ .inconsistentDedent column) (fun _ => True) (lexemeAt c rest) := by
  unfold lexemeAt
  split
  · simp [Yields]
  split
  · trivial
  split
  · trivial
  split
  · refine Yields.map (Q := fun _ => True) ?_ fun _ _ => trivial
    exact (quotedTail_fault (by simp) 1 rest).map fun _ _ => trivial
  split
  · refine Yields.map (Q := fun _ => True) ?_ fun _ _ => trivial
    refine (quotedTail_fault (by simp) 1 rest).bind fun r _ => ?_
    simp only
    split
    · trivial
    · simp [Yields]
  · split
    · trivial
    · simp [Yields]

theorem scanLine_fault (line offset : Nat) (cs : List Char) (column depth : Nat) :
    Yields (fun e => ∀ column, e.fault ≠ .inconsistentDedent column) (fun _ => True)
      (scanLine line offset cs column depth) := by
  fun_induction scanLine line offset cs column depth with
  | case1 => trivial
  | case2 _ _ _ ih => exact ih
  | case3 _ _ c rest _ _ _ hlex =>
    have := lexemeAt_fault c rest
    rw [hlex] at this
    exact this
  | case4 _ _ _ _ _ _ _ _ _ ih => exact ih.map fun _ _ => trivial

theorem headers_fault {number depth : Nat} {raws : List (List Char)} {e : Error}
    (h : (headers number depth raws).2 = some e)
    (column : Nat) : e.fault ≠ .inconsistentDedent column := by
  induction raws generalizing number depth with
  | nil => cases h
  | cons raw rest ih =>
    rw [headers] at h
    simp only at h
    split at h
    · exact ih h
    split at h
    · rename_i hw
      split at hw
      · unfold indentation at hw
        simp only at hw
        split at hw
        · cases hw
          cases h
          simp
        · cases hw
      · cases hw
    split at h
    · rename_i width _ _ _ hscan
      have := scanLine_fault number 0 ((dropReturn raw).drop width) (width + 1) depth
      rw [hscan] at this
      cases h
      exact this column
    · exact ih h

/-! ## The lexer and the stack -/

theorem scanLine_at (line offset column depth : Nat) (cs : List Char) :
    scanLine line offset cs (column + 1) depth = movedScan 0 offset id (scanLine line 0 cs (column + 1) depth) := by
  simpa using scanLine_moved 0 offset (Nat.succ_pos column) line 0 depth cs

theorem reindent_at (l : Layout) (line width : Nat) :
    Prod.snd <$> l.reindent line width = Prod.snd <$> (⟨l.indents, 0, 0⟩ : Layout).reindent line width := by
  unfold Layout.reindent
  rw [show (⟨l.indents, 0, 0⟩ : Layout).width = l.width from rfl]
  split
  · rfl
  · simp only
    split <;> rfl

theorem faultOf_bind {α β : Type} (r : Except Error α) (f : α → Except Error β) :
    faultOf (r >>= f) = match r with
      | .error e => some e
      | .ok a => faultOf (f a) := by
  cases r <;> rfl

theorem restack_cons (l : Layout) (number width : Nat) (hs : List Header) :
    restack l.indents (⟨number, width⟩ :: hs) = (Prod.snd <$> l.reindent number width) >>= (restack · hs) := by
  rw [reindent_at]
  rfl

/-- The lexer fails where the stack does, or else where the text does. -/
theorem lines_fault (l : Layout) (number : Nat) (raws : List (List Char)) :
    faultOf (l.lines number raws) =
      (faultOf (restack l.indents (headers number l.depth raws).1)).or (headers number l.depth raws).2 := by
  induction raws generalizing l number with
  | nil => rfl
  | cons raw rest ih =>
    have hrest : ∀ (next : Layout) (first : List Token),
        faultOf (do let r ← next.lines (number + 1) rest; pure (first ++ r.1, r.2)) =
          (faultOf (restack next.indents (headers (number + 1) next.depth rest).1)).or
            (headers (number + 1) next.depth rest).2 := fun next first => by
      rw [← ih next, faultOf_bind]
      cases next.lines (number + 1) rest <;> rfl
    rw [Layout.lines, headers]
    cases hblank : isBlankLine (dropReturn raw) with
    | true =>
      rw [line_of_blank hblank]
      exact hrest { l with offset := l.offset + raw.length + 1 } []
    | false =>
      unfold Layout.line
      simp only [hblank, Bool.false_eq_true, if_false, scanLine_at number l.offset]
      by_cases hd : l.depth = 0
      · simp only [hd, if_true]
        cases indentation number (dropReturn raw) with
        | error e => rfl
        | ok width =>
          simp only [Success.ok_bind]
          cases hr : l.reindent number width with
          | error e =>
              cases scanLine number 0 ((dropReturn raw).drop width) (width + 1) 0 <;> simp [restack_cons, hr, faultOf]
          | ok r =>
            cases scanLine number 0 ((dropReturn raw).drop width) (width + 1) 0 with
            | error e =>
              simp only [restack_cons, hr, Success.ok_map, Success.ok_bind]
              rfl
            | ok s =>
              simp only [movedScan, Success.ok_map, Success.mapError_ok, Success.ok_bind, Success.pure_eq, id,
                List.singleton_append, restack_cons, hr]
              exact hrest ⟨r.2, s.2, _⟩ _
      · simp only [hd, if_false, Success.pure_eq, Success.ok_bind]
        cases scanLine number 0 ((dropReturn raw).drop 0) (0 + 1) l.depth with
        | error e =>
          rfl
        | ok s =>
          simp only [movedScan, Success.ok_map, Success.mapError_ok, Success.ok_bind, id, List.nil_append]
          exact hrest ⟨l.indents, s.2, _⟩ _

/-! ## Open blocks -/

theorem headers_line {number depth : Nat} {raws : List (List Char)} :
    ∀ h ∈ (headers number depth raws).1, number ≤ h.line := by
  induction raws generalizing number depth with
  | nil => simp [headers]
  | cons raw rest ih =>
    have hlater : ∀ depth, ∀ h ∈ (headers (number + 1) depth rest).1, number ≤ h.line := fun depth h hh =>
      Nat.le_of_succ_le (ih h hh)
    have hown : ∀ width, ∀ h ∈ (if depth = 0 then [(⟨number, width⟩ : Header)] else []), number ≤ h.line := by
      intro width h hh
      split at hh
      · rw [List.mem_singleton.mp hh]
      · cases hh
    intro h hh
    rw [headers] at hh
    simp only at hh
    split at hh
    · exact hlater _ h hh
    split at hh
    · cases hh
    split at hh
    · exact hown _ h hh
    · rcases List.mem_append.mp hh with hh | hh
      · exact hown _ h hh
      · exact hlater _ h hh

/-- A line that is not blank starts a statement if no parenthesis is open. -/
theorem headers_of_open {l : Layout} {number width depth : Nat} {raw : List Char} {front body : List Token}
    {indents : List Nat} (htext : isBlankLine (dropReturn raw) = false)
    (hopen : l.Opens number (dropReturn raw) width front indents)
    (hbody : scanLine number l.offset ((dropReturn raw).drop width) (width + 1) l.depth = .ok (body, depth))
    (rest : List (List Char)) : (headers number l.depth (raw :: rest)).1 =
      (if l.depth = 0 then [⟨number, width⟩] else []) ++ (headers (number + 1) depth rest).1 := by
  have hwidth : (if l.depth = 0 then indentation number (dropReturn raw) else pure 0) = .ok width := by
    unfold Layout.Opens at hopen
    split at hopen
    · rename_i hd
      rw [if_pos hd, hopen.1]
    · rename_i hd
      rw [if_neg hd, hopen.1]
      rfl
  rw [scanLine_at] at hbody
  rw [headers]
  simp only [htext, Bool.false_eq_true, if_false, hwidth]
  cases hscan : scanLine number 0 ((dropReturn raw).drop width) (width + 1) l.depth with
  | error e =>
    rw [hscan] at hbody
    cases hbody
  | ok s =>
    rw [hscan] at hbody
    obtain ⟨-, rfl⟩ := Prod.mk.inj (Except.ok.inj hbody)
    rfl

/-- The lines that start a statement are those that are not blank and have no open parenthesis in front of them. -/
theorem mem_headers_iff {l last : Layout} {number : Nat} {raws : List (List Char)} {ts : List Token}
    (h : l.lines number raws = .ok (ts, last)) {g : Header} : g ∈ (headers number l.depth raws).1 ↔
      ∃ above raw below us next, raws = above ++ raw :: below ∧ l.lines number above = .ok (us, next) ∧ next.depth = 0 ∧
        isBlankLine (dropReturn raw) = false ∧ g.line = number + above.length ∧
        indentation g.line (dropReturn raw) = .ok g.width := by
  induction raws generalizing l number ts with
  | nil => simp [headers]
  | cons raw rest ih =>
    obtain ⟨first, next, others, hfirst, hothers, rfl⟩ := lines_cons_iff.mp h
    have hlater := ih hothers
    -- It is the first line, or one of the others.
    have hcases : (∃ above raw' below us last', raw :: rest = above ++ raw' :: below ∧
        l.lines number above = .ok (us, last') ∧ last'.depth = 0 ∧ isBlankLine (dropReturn raw') = false ∧
        g.line = number + above.length ∧ indentation g.line (dropReturn raw') = .ok g.width) ↔
        (l.depth = 0 ∧ isBlankLine (dropReturn raw) = false ∧ g.line = number ∧
          indentation g.line (dropReturn raw) = .ok g.width) ∨ g ∈ (headers (number + 1) next.depth rest).1 := by
      constructor
      · rintro ⟨above, raw', below, us, last', hsplit, habove, hdepth, htext, hline, hwidth⟩
        cases above with
        | nil =>
          obtain ⟨rfl, -⟩ := List.cons.inj hsplit
          cases habove
          exact .inl ⟨hdepth, htext, hline, hwidth⟩
        | cons _ above =>
          obtain ⟨rfl, hmore⟩ := List.cons.inj hsplit
          obtain ⟨_, _, us, hfirst', habove, -⟩ := lines_cons_iff.mp habove
          rw [hfirst] at hfirst'
          cases hfirst'
          rw [List.length_cons] at hline
          exact .inr (hlater.mpr ⟨above, raw', below, us, last', hmore, habove, hdepth, htext, by omega, hwidth⟩)
      · rintro (⟨hdepth, htext, hline, hwidth⟩ | hmem)
        · exact ⟨[], raw, rest, [], l, rfl, rfl, hdepth, htext, hline, hwidth⟩
        · obtain ⟨above, raw', below, us, last', rfl, habove, hdepth, htext, hline, hwidth⟩ := hlater.mp hmem
          refine ⟨raw :: above, raw', below, _, last', rfl, lines_cons_iff.mpr ⟨_, _, _, hfirst, habove, rfl⟩, hdepth,
            htext, ?_, hwidth⟩
          rw [List.length_cons]
          omega
    rw [hcases]
    cases hblank : isBlankLine (dropReturn raw) with
    | true =>
      rw [line_of_blank hblank] at hfirst
      cases hfirst
      rw [headers]
      simp [hblank]
    | false =>
      obtain ⟨width, front, indents, body, depth, hopen, hbody, -, -, rfl⟩ := line_of_text hfirst hblank
      rw [headers_of_open hblank hopen hbody, List.mem_append]
      refine or_congr_left ?_
      unfold Layout.Opens at hopen
      split at hopen
      · rename_i hdepth
        rw [if_pos hdepth, List.mem_singleton]
        constructor
        · rintro rfl
          exact ⟨hdepth, rfl, rfl, hopen.1⟩
        · rintro ⟨-, -, hline, hwidth⟩
          rw [hline, hopen.1] at hwidth
          obtain rfl : width = g.width := Except.ok.inj hwidth
          rw [← hline]
      · rename_i hdepth
        simp [hdepth]

/-- In front of the text of a line, blocks are open as its width and those of the lines before it say. -/
theorem lines_levels {l last : Layout} {number : Nat} {raws : List (List Char)} {ts : List Token}
    (h : l.lines number raws = .ok (ts, last)) (hholds : Holds l.indents ws) {before after : List Header} {g : Header}
    (hsplit : (headers number l.depth raws).1 = before ++ g :: after) :
    ∃ front t rest, ts = front ++ t :: rest ∧ t.kind.isOrdinary = true ∧ t.line = g.line ∧
      (∀ u ∈ ordinary front, u.line < g.line) ∧
      l.indents.length + opened front = closed front + (openLevels (ws ++ widths (before ++ [g]))).card := by
  induction raws generalizing l number ts ws before with
  | nil => simp [headers] at hsplit
  | cons raw rest ih =>
    obtain ⟨first, next, others, hfirst, hothers, rfl⟩ := lines_cons_iff.mp h
    -- What is said of a later line among those behind this one holds among all of them.
    have hlater : ∀ {ws' : List Nat} {before' : List Header}, Holds next.indents ws' →
        (headers (number + 1) next.depth rest).1 = before' ++ g :: after → ∃ front t rest,
          first ++ others = front ++ t :: rest ∧ t.kind.isOrdinary = true ∧ t.line = g.line ∧
          (∀ u ∈ ordinary front, u.line < g.line) ∧
          l.indents.length + opened front = closed front + (openLevels (ws' ++ widths (before' ++ [g]))).card := by
      intro ws' before' hholds' hsplit'
      obtain ⟨front, t, more, rfl, ht, hline, hfront, hcount⟩ := ih hothers hholds' hsplit'
      have hnumber : number + 1 ≤ g.line := headers_line g (by rw [hsplit']; simp)
      refine ⟨first ++ front, t, more, by simp, ht, hline, fun u hu => ?_, ?_⟩
      · rw [ordinary_append] at hu
        rcases List.mem_append.mp hu with hu | hu
        · rw [(line_ordered hfirst).1 u hu]
          exact hnumber
        · exact hfront u hu
      · have := (line_balances hfirst).total
        simp only [opened_append, closed_append]
        omega
    cases hblank : isBlankLine (dropReturn raw) with
    | true =>
      rw [line_of_blank hblank] at hfirst
      cases hfirst
      rw [headers] at hsplit
      simp only [hblank, if_true] at hsplit
      exact hlater hholds hsplit
    | false =>
      obtain ⟨width, front, indents, body, depth, hopen, hbody, hne, rfl, rfl⟩ := line_of_text hfirst hblank
      rw [headers_of_open hblank hopen hbody] at hsplit
      have hbalances := hopen.balances
      unfold Layout.Opens at hopen
      split at hopen
      · rename_i hdepth
        rw [if_pos hdepth, List.singleton_append] at hsplit
        obtain ⟨-, hreindent⟩ := hopen
        have hholds' : Holds indents (ws ++ [width]) := by
          rcases reindent_of_holds hholds ⟨number, width⟩ with ⟨-, herror⟩ | ⟨-, _, _, hok, hholds'⟩
          · rw [hreindent] at herror
            cases herror
          · rw [hreindent] at hok
            cases hok
            exact hholds'
        cases before with
        | nil =>
          obtain ⟨rfl, -⟩ := List.cons.inj hsplit
          obtain ⟨t, more, rfl⟩ := List.exists_cons_of_ne_nil hne
          refine ⟨front, t, _, by rw [List.append_assoc, List.append_assoc]; rfl,
            (scanLine_lexemes hbody t List.mem_cons_self).1,
            ((scanLine_ordered hbody).1 t List.mem_cons_self).1, ?_, ?_⟩
          · simp [ordinary_eq_nil (reindent_marks hreindent)]
          · have := hbalances.total
            rw [List.nil_append, widths, List.map_singleton, hholds'.card]
            omega
        | cons first before =>
          obtain ⟨rfl, hmore⟩ := List.cons.inj hsplit
          simpa [widths] using hlater hholds' hmore
      · rename_i hdepth
        rw [if_neg hdepth, List.nil_append] at hsplit
        obtain ⟨-, rfl, rfl⟩ := hopen
        exact hlater hholds hsplit

/-! ## Whole texts -/

theorem holds_start : Holds Layout.start.indents [] where
  ordered := List.Pairwise.nil
  levels v := by simp [Layout.start, openLevels]
  last := rfl

/-- Among lines of which one misfits there is a first that does. -/
theorem exists_isFirstMisfit {before after : List Header} {g : Header} (h : Misfits (ws ++ widths before) g.width) :
    ∃ g', IsFirstMisfit ws (before ++ g :: after) g' := by
  induction before generalizing ws with
  | nil => exact ⟨g, isFirstMisfit_cons.mpr (.inl ⟨by simpa [widths] using h, rfl⟩)⟩
  | cons first before ih =>
    by_cases hm : Misfits ws first.width
    · exact ⟨first, isFirstMisfit_cons.mpr (.inl ⟨hm, rfl⟩)⟩
    · have hlater : Misfits ((ws ++ [first.width]) ++ widths before) g.width := by simpa [widths] using h
      obtain ⟨g', hg'⟩ := ih hlater
      exact ⟨g', isFirstMisfit_cons.mpr (.inr ⟨hm, hg'⟩)⟩

/-- The lines of a text that start a statement, and its first fault that has to do with no width. -/
def statementLines (source : String) : List Header × Option Error := headers 1 0 (splitLines source.toList)

/-- In a text that has tokens, a statement starts at every line that is not blank and has no open parenthesis in front
of it, and at no other. -/
theorem mem_statementLines_iff {source : String} {ts : List Token} (h : tokenize source = .ok ts) {g : Header} :
    g ∈ (statementLines source).1 ↔ ∃ above raw below us l, splitLines source.toList = above ++ raw :: below ∧
      Layout.start.lines 1 above = .ok (us, l) ∧ l.depth = 0 ∧ isBlankLine (dropReturn raw) = false ∧
      g.line = 1 + above.length ∧ indentation g.line (dropReturn raw) = .ok g.width := by
  obtain ⟨inner, last, hinner, -⟩ := tokenize_ok_iff.mp h
  exact mem_headers_iff hinner

/-- A text has the fault of the first line that misfits, or else one that has to do with no width. -/
theorem tokenize_fault (source : String) (e : Error) : tokenize source = .error e ↔
    (∃ g, IsFirstMisfit [] (statementLines source).1 g ∧ e = g.misfit) ∨
    (∀ g, ¬ IsFirstMisfit [] (statementLines source).1 g) ∧ (statementLines source).2 = some e := by
  have hmisfit : ∀ e, faultOf (restack Layout.start.indents (statementLines source).1) = some e ↔
      ∃ g, IsFirstMisfit [] (statementLines source).1 g ∧ e = g.misfit := fun e => restack_fault holds_start
  have htokenize : tokenize source = .error e ↔ (faultOf (restack Layout.start.indents (statementLines source).1)).or
      (statementLines source).2 = some e := by
    rw [statementLines, show (0 : Nat) = Layout.start.depth from rfl, ← lines_fault, tokenize, tokenizeChars]
    simp only
    cases Layout.start.lines 1 (splitLines source.toList) <;> simp [faultOf]
  rw [htokenize]
  cases hfault : faultOf (restack Layout.start.indents (statementLines source).1) with
  | some e' =>
    rw [hfault] at hmisfit
    rw [Option.some_or]
    constructor
    · exact fun heq => .inl ((hmisfit e).mp heq)
    · rintro (hfirst | ⟨hnone, -⟩)
      · exact (hmisfit e).mpr hfirst
      · obtain ⟨g, hg, -⟩ := (hmisfit e').mp rfl
        exact absurd hg (hnone g)
  | none =>
    rw [hfault] at hmisfit
    rw [Option.none_or]
    have hnone : ∀ g, ¬ IsFirstMisfit [] (statementLines source).1 g := fun g hg => by
      cases (hmisfit g.misfit).mpr ⟨g, hg, rfl⟩
    constructor
    · exact fun heq => .inr ⟨hnone, heq⟩
    · rintro (⟨g, hg, -⟩ | ⟨-, heq⟩)
      · exact absurd hg (hnone g)
      · exact heq

/-- The widths of the lines that start a statement say which blocks are open. In a text that has tokens, the blocks
opened and not closed in front of the first token of such a line are as many as the levels that its width and those
before it leave open. A text has the fault of a wrong width exactly when one of these lines misfits, and it is that of
the first of them; else it has its first other fault, or none. -/
theorem blocks_follow_widths (source : String) :
    (∀ ts, tokenize source = .ok ts → ∀ before g after, (statementLines source).1 = before ++ g :: after →
      ∃ front t rest, ts = front ++ t :: rest ∧ t.kind.isOrdinary = true ∧ t.line = g.line ∧
        (∀ u ∈ ordinary front, u.line < g.line) ∧
        opened front = closed front + (openLevels (widths (before ++ [g]))).card) ∧
    ((∃ e column, tokenize source = .error e ∧ e.fault = .inconsistentDedent column) ↔
      ∃ before g after, (statementLines source).1 = before ++ g :: after ∧ Misfits (widths before) g.width) ∧
    (∀ g, IsFirstMisfit [] (statementLines source).1 g →
      tokenize source = .error ⟨.inconsistentDedent (g.width + 1), g.line, g.width + 1⟩) ∧
    ((∀ g, ¬ IsFirstMisfit [] (statementLines source).1 g) →
      ∀ e, tokenize source = .error e ↔ (statementLines source).2 = some e) := by
  have hfault := tokenize_fault source
  refine ⟨fun ts hts before g after hsplit => ?_, ⟨?_, ?_⟩, fun g hg => ?_, fun hnone e => ?_⟩
  · obtain ⟨inner, last, hinner, rfl⟩ := tokenize_ok_iff.mp hts
    obtain ⟨front, t, rest, rfl, ht, hline, hfront, hcount⟩ := lines_levels hinner holds_start hsplit
    exact ⟨front, t, _, by rw [List.append_assoc]; rfl, ht, hline, hfront, by simpa [Layout.start] using hcount⟩
  · rintro ⟨e, column, herror, hcolumn⟩
    rcases (hfault e).mp herror with ⟨g, ⟨before, after, hsplit, hm, -⟩, -⟩ | ⟨-, hother⟩
    · exact ⟨before, g, after, hsplit, hm⟩
    · exact absurd hcolumn (headers_fault hother column)
  · rintro ⟨before, g, after, hsplit, hm⟩
    obtain ⟨g', hg'⟩ : ∃ g', IsFirstMisfit [] (before ++ g :: after) g' := exists_isFirstMisfit hm
    rw [← hsplit] at hg'
    exact ⟨g'.misfit, g'.width + 1, (hfault _).mpr (.inl ⟨g', hg', rfl⟩), rfl⟩
  · exact (hfault _).mpr (.inl ⟨g, hg, rfl⟩)
  · refine (hfault e).trans ⟨?_, fun h => .inr ⟨hnone, h⟩⟩
    rintro (⟨g, hg, -⟩ | ⟨-, h⟩)
    · exact absurd hg (hnone g)
    · exact h

/-- Lines of widths 0, 4, 8 and 4, with a line inside parentheses and a blank one among them. -/
def steppedSource : String := "a\n    b (\n  c)\n        d\n\n    e\n"

/-- One block is open at the last line; a further line of width 2 misfits. -/
theorem steppedSource_blocks :
    (∃ front t rest, tokenize steppedSource = .ok (front ++ t :: rest) ∧ t.line = 6 ∧ opened front = closed front + 1) ∧
    tokenize (steppedSource ++ "  f") = .error ⟨.inconsistentDedent 3, 7, 3⟩ := by
  have hlines : (statementLines steppedSource).1 = [⟨1, 0⟩, ⟨2, 4⟩, ⟨4, 8⟩] ++ ⟨6, 4⟩ :: [] := by decide +kernel
  have hmore : (statementLines (steppedSource ++ "  f")).1 = [⟨1, 0⟩, ⟨2, 4⟩, ⟨4, 8⟩, ⟨6, 4⟩, ⟨7, 2⟩] := by
    decide +kernel
  constructor
  · cases hts : tokenize steppedSource with
    | error e =>
      have hok : faultOf (tokenize steppedSource) = none := by decide +kernel
      rw [hts] at hok
      cases hok
    | ok ts =>
      obtain ⟨front, t, rest, rfl, -, hline, -, hcount⟩ := (blocks_follow_widths _).1 ts hts _ _ _ hlines
      exact ⟨front, t, rest, rfl, hline, hcount⟩
  · refine (blocks_follow_widths _).2.2.1 ⟨7, 2⟩ ?_
    rw [hmore]
    refine isFirstMisfit_cons.mpr (.inr ⟨by decide, ?_⟩)
    refine isFirstMisfit_cons.mpr (.inr ⟨by decide, ?_⟩)
    refine isFirstMisfit_cons.mpr (.inr ⟨by decide, ?_⟩)
    refine isFirstMisfit_cons.mpr (.inr ⟨by decide, ?_⟩)
    exact isFirstMisfit_cons.mpr (.inl ⟨by decide, rfl⟩)

end TillLang.Token
