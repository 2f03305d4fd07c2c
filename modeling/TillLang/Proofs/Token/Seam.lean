/-
  TillLang.Proofs.Token.Seam — one text behind another.

  From the lines of a text the lexer carries two things into the lines behind it: how many
  parentheses are open, and which blocks. The first can be read off the tokens
  (`lines_parens`). Where no parenthesis is open, the blocks are closed by the next line that
  is not blank and has no width, with the tokens that the end of the text would have closed
  them with; from there on nothing of the lines before is left (`lines_seam`).

  So a text whose first block does not open before its first statement has, behind another
  text, the tokens that it has alone (`tokenize_seam`).
-/

import Mathlib.Data.List.TakeWhile
import TillLang.Proofs.Token.Readable
import TillLang.Proofs.Token.Relaid

namespace TillLang.Token

open Grammar (Terminal)

/-! ## Parentheses -/

/-- The number of open parentheses after a token. -/
def parens (depth : Nat) (t : Token) : Nat :=
  match Terminal.ofToken? t with
  | some .lpar => depth + 1
  | some .rpar => depth - 1
  | _ => depth

/-- The number of open parentheses after some tokens. -/
def parensAfter (depth : Nat) (ts : List Token) : Nat := ts.foldl parens depth

variable {depth : Nat} {ts us : List Token}

@[simp] theorem parensAfter_nil (depth : Nat) : parensAfter depth [] = depth := rfl

@[simp] theorem parensAfter_cons (depth : Nat) (t : Token) (ts : List Token) :
    parensAfter depth (t :: ts) = parensAfter (parens depth t) ts := rfl

@[simp] theorem parensAfter_append (depth : Nat) (ts us : List Token) :
    parensAfter depth (ts ++ us) = parensAfter (parensAfter depth ts) us :=
  List.foldl_append

/-- Line ends and the ends of blocks are no parentheses. -/
theorem parensAfter_of_marks (h : ∀ t ∈ ts, t.kind.isOrdinary = false) (depth : Nat) :
    parensAfter depth ts = depth := by
  induction ts with
  | nil => rfl
  | cons t ts ih =>
    obtain ⟨ht, hts⟩ := List.forall_mem_cons.mp h
    have hmark : parens depth t = depth := by
      unfold parens Terminal.ofToken?
      cases hk : t.kind <;> simp_all [Kind.isOrdinary]
    rw [parensAfter_cons, hmark, ih hts]

theorem parens_of_word (word : String) (line column start : Nat) :
    parens depth ⟨wordKind word, word, line, column, start⟩ = depth := by
  unfold wordKind
  split
  · rename_i h
    have hm : word ∈ keywords := by simpa using h
    simp only [keywords, List.mem_cons, List.not_mem_nil, or_false] at hm
    rcases hm with rfl | rfl | rfl | rfl <;> rfl
  · split
    · unfold parens Terminal.ofToken?
      cases word == "true" <;> simp
    · rfl

theorem parens_of_op {cs text : List Char} (h : opText? cs = some text) (line column start : Nat) :
    parens depth ⟨.op, String.ofList text, line, column, start⟩ = depthAfter depth .op text := by
  unfold opText? at h
  split at h
  · cases h
    rfl
  · cases h
    rfl
  · rename_i c _ _ _
    split at h
    · rename_i hc
      cases h
      have hm : c ∈ ['<', '>', '+', '-', '*', '/', '!', '~', '=', '(', ')', ','] := by
        simpa only [isSingleOp, List.contains_iff_mem] using hc
      simp only [List.mem_cons, List.not_mem_nil, or_false] at hm
      rcases hm with rfl | rfl | rfl | rfl | rfl | rfl | rfl | rfl | rfl | rfl | rfl | rfl <;> rfl
    · cases h
  · cases h

/-- The lexer counts the parentheses among the tokens that it takes. -/
theorem parens_of_lexeme {c : Char} {rest text : List Char} {kind : Kind} (h : lexemeAt c rest = .ok (kind, text))
    (line column start : Nat) :
    parens depth ⟨kind, String.ofList text, line, column, start⟩ = depthAfter depth kind text := by
  unfold lexemeAt at h
  split at h
  · cases h
  split at h
  · cases h
    have hop : wordKind (String.ofList (c :: rest.takeWhile isWordChar)) ≠ .op := by
      rcases wordKind_cases (String.ofList (c :: rest.takeWhile isWordChar)) with hk | hk | hk <;> rw [hk] <;> decide
    rw [parens_of_word]
    unfold depthAfter
    rw [if_neg (by simp [hop, -String.ofList_cons]), if_neg (by simp [hop, -String.ofList_cons])]
  split at h
  · cases h
    rfl
  split at h
  · obtain ⟨_, -, h⟩ := Success.map_iff.mp h
    cases h
    rfl
  split at h
  · obtain ⟨_, -, h⟩ := Success.map_iff.mp h
    cases h
    rfl
  split at h
  · rename_i hop
    cases h
    exact parens_of_op hop line column start
  · cases h

theorem scanLine_parens {line offset column depth' : Nat} {cs : List Char}
    (h : scanLine line offset cs column depth = .ok (ts, depth')) : parensAfter depth ts = depth' := by
  fun_induction scanLine line offset cs column depth generalizing ts with
  | case1 =>
    cases h
    rfl
  | case2 _ _ _ ih => exact ih h
  | case3 => cases h
  | case4 column depth c rest _ kind text hlex token =>
    rename_i ih
    obtain ⟨⟨others, d⟩, hothers, h⟩ := Success.map_iff.mp h
    cases h
    rw [parensAfter_cons, parens_of_lexeme hlex, ih hothers]

theorem line_parens {l next : Layout} {number : Nat} {raw : List Char} (h : l.line number raw = .ok (ts, next)) :
    parensAfter l.depth ts = next.depth := by
  rcases line_cases h with ⟨-, rfl, rfl⟩ | ⟨width, front, indents, body, depth, hopen, hbody, rfl, rfl⟩
  · rfl
  · have hfront : parensAfter l.depth front = l.depth := by
      unfold Layout.Opens at hopen
      split at hopen
      · exact parensAfter_of_marks (reindent_marks hopen.2) _
      · rw [hopen.2.1, parensAfter_nil]
    have hend : ∀ t ∈ (if depth = 0 then [l.mark .newline number ((dropReturn raw).length + 1)] else []),
        t.kind.isOrdinary = false := fun t ht => by
      rw [newline_of_ending t ht]
      rfl
    rw [parensAfter_append, parensAfter_append, hfront, scanLine_parens hbody, parensAfter_of_marks hend]

/-- The parentheses that some lines leave open are those that their tokens do. -/
theorem lines_parens {l last : Layout} {number : Nat} {raws : List (List Char)}
    (h : l.lines number raws = .ok (ts, last)) : parensAfter l.depth ts = last.depth := by
  induction raws generalizing l number ts with
  | nil =>
    cases h
    rfl
  | cons raw rest ih =>
    obtain ⟨first, next, others, hfirst, hothers, rfl⟩ := lines_cons_iff.mp h
    rw [parensAfter_append, line_parens hfirst, ih hothers]

/-! ## Lines in another place -/

/-- Blocks are open at positive widths. -/
theorem reindent_positive {l : Layout} {line width : Nat} {indents : List Nat}
    (h : l.reindent line width = .ok (ts, indents)) (hl : ∀ w ∈ l.indents, 0 < w) : ∀ w ∈ indents, 0 < w := by
  rcases reindent_cases h with ⟨hw, -, rfl⟩ | ⟨-, rfl, -, -⟩
  · exact List.forall_mem_cons.mpr ⟨Nat.zero_lt_of_lt hw, hl⟩
  · exact fun w hw => hl w ((List.dropWhile_sublist _).subset hw)

theorem line_positive {l next : Layout} {number : Nat} {raw : List Char} (h : l.line number raw = .ok (ts, next))
    (hl : ∀ w ∈ l.indents, 0 < w) : ∀ w ∈ next.indents, 0 < w := by
  rcases line_cases h with ⟨-, -, rfl⟩ | ⟨width, front, indents, body, depth, hopen, -, -, rfl⟩
  · exact hl
  · unfold Layout.Opens at hopen
    split at hopen
    · exact reindent_positive hopen.2 hl
    · exact hopen.2.2 ▸ hl

theorem lines_positive {l last : Layout} {number : Nat} {raws : List (List Char)}
    (h : l.lines number raws = .ok (ts, last)) (hl : ∀ w ∈ l.indents, 0 < w) : ∀ w ∈ last.indents, 0 < w := by
  induction raws generalizing l number ts with
  | nil =>
    cases h
    exact hl
  | cons raw rest ih =>
    obtain ⟨first, next, others, hfirst, hothers, -⟩ := lines_cons_iff.mp h
    exact ih hothers (line_positive hfirst hl)

/-- Only the open blocks and parentheses decide what the tokens of lines say. -/
theorem lines_alike {l last : Layout} {number : Nat} {raws : List (List Char)}
    (h : l.lines number raws = .ok (ts, last))
    (l' : Layout) (hindents : l'.indents = l.indents) (hdepth : l'.depth = l.depth) (number' : Nat) :
    ∃ us last', l'.lines number' raws = .ok (us, last') ∧ Alike us ts ∧ last'.indents = last.indents ∧
      last'.depth = last.depth := by
  -- Both are what the lines give at the top of a text, moved down.
  have hfrom : ∀ (k : Layout) (n : Nat), k.indents = l.indents → k.depth = l.depth → k.lines n raws =
      movedScan n k.offset (·.moved k.offset) (Layout.lines ⟨l.indents, l.depth, 0⟩ 0 raws) := by
    rintro ⟨_, _, offset⟩ n rfl rfl
    rw [← lines_moved]
    simp only [Layout.moved, Nat.zero_add]
  rw [hfrom l number rfl rfl] at h
  obtain ⟨⟨vs, top⟩, htop, hresult⟩ := Success.map_iff.mp (Success.mapError_iff.mp h)
  cases hresult
  have hlines : l'.lines number' raws = .ok (vs.map (moved number' l'.offset), top.moved l'.offset) := by
    rw [hfrom l' number' hindents hdepth, htop]
    rfl
  exact ⟨_, _, hlines, (alike_moved ..).trans (alike_moved ..).symm, rfl, rfl⟩

theorem indentation_alike {number width : Nat} {text : List Char} (h : indentation number text = .ok width)
    (number' : Nat) : indentation number' text = .ok width := by
  unfold indentation at h ⊢
  simp only at h ⊢
  split at h
  · cases h
  · rename_i htab
    rw [if_neg htab]
    exact h

/-- A line without width closes all blocks. -/
theorem reindent_zero {l : Layout} (h : ∀ w ∈ l.indents, 0 < w) (line : Nat) :
    l.reindent line 0 = .ok (List.replicate l.indents.length (l.mark .dedent line 1), []) := by
  have htake : l.indents.takeWhile (0 < ·) = l.indents := List.takeWhile_eq_self_iff.mpr (by simpa using h)
  have hdrop : l.indents.dropWhile (0 < ·) = [] := List.dropWhile_eq_nil_iff.mpr (by simpa using h)
  unfold Layout.reindent
  rw [if_neg (Nat.not_lt_zero _), closeBlocks_eq]
  simp only [htake, hdrop, List.headD_nil, if_true]

/-- The first statement of a text without open blocks opens one, or it has no width. -/
theorem reindent_of_closed {l : Layout} {line width : Nat} {indents : List Nat} (hl : l.indents = [])
    (h : l.reindent line width = .ok (ts, indents)) (hts : ∀ t ∈ ts.head?, t.kind ≠ .indent) :
    width = 0 ∧ ts = [] ∧ indents = [] := by
  rcases reindent_cases h with ⟨-, rfl, -⟩ | ⟨hwidth, rfl, -, rfl⟩
  · exact absurd rfl (hts _ rfl)
  · rw [Layout.width, hl] at hwidth
    exact ⟨Nat.le_zero.mp hwidth, by simp [hl], by simp [hl]⟩

/-- Lines that open no block in front of their first statement have the same tokens where blocks are open, behind the
ends of these blocks. -/
theorem lines_seam {l l₀ last : Layout} {number : Nat} {raws : List (List Char)} (hdepth : l.depth = 0)
    (hindents : ∀ w ∈ l.indents, 0 < w) (hdepth₀ : l₀.depth = 0) (hindents₀ : l₀.indents = [])
    (h : l₀.lines number raws = .ok (ts, last)) (hts : ∀ t ∈ ts.head?, t.kind ≠ .indent) (number' : Nat) :
    ∃ us last', l.lines number' raws = .ok (us, last') ∧ ∀ count count' raw raw',
      (us ++ last'.finish count' raw').map content =
        List.replicate l.indents.length (.dedent, "") ++ (ts ++ last.finish count raw).map content := by
  induction raws generalizing l l₀ number number' ts with
  | nil =>
    cases h
    exact ⟨[], l, rfl, by simp [Layout.finish, hdepth, hdepth₀, hindents₀, Layout.mark, content]⟩
  | cons raw rest ih =>
    obtain ⟨first, next, others, hfirst, hothers, rfl⟩ := lines_cons_iff.mp h
    by_cases hblank : isBlankLine (dropReturn raw) = true
    · rw [line_of_blank hblank] at hfirst
      cases hfirst
      obtain ⟨us, last', hus, hsay⟩ := ih (l := { l with offset := l.offset + raw.length + 1 }) hdepth hindents
        (by exact hdepth₀) (by exact hindents₀) hothers hts (number' + 1)
      exact ⟨us, last', lines_cons_iff.mpr ⟨[], _, us, line_of_blank hblank l number', hus, rfl⟩, hsay⟩
    · obtain ⟨width, front, indents, body, depth, hopen, hbody, -, rfl, rfl⟩ :=
        line_of_text hfirst (by simpa using hblank)
      unfold Layout.Opens at hopen
      rw [if_pos hdepth₀] at hopen
      obtain ⟨rfl, rfl, rfl⟩ := reindent_of_closed hindents₀ hopen.2 fun t ht =>
        hts t (by
          rw [List.append_assoc, List.append_assoc]
          exact List.mem_head?_append_of_mem_head? ht)
      obtain ⟨body', hbody', halike⟩ := scanLine_alike hbody number' l.offset 1
      have hscan : scanLine number' l.offset ((dropReturn raw).drop 0) (0 + 1) l.depth = .ok (body', depth) := by
        rw [hdepth.trans hdepth₀.symm]
        exact hbody'
      have hopen' :
        l.Opens number' (dropReturn raw) 0 (List.replicate l.indents.length (l.mark .dedent number' 1)) [] := by
        unfold Layout.Opens
        rw [if_pos hdepth]
        exact ⟨indentation_alike hopen.1 number', reindent_zero hindents number'⟩
      have hline := line_of_opens (by simpa using hblank) hopen' hscan
      obtain ⟨us, last', hus, hrest, hlast, hlastDepth⟩ := lines_alike hothers
        ⟨[], depth, l.offset + raw.length + 1⟩ rfl rfl (number' + 1)
      refine ⟨_, last', lines_cons_iff.mpr ⟨_, _, us, hline, hus, rfl⟩, fun count count' raw' raw'' => ?_⟩
      have hfinish := alike_finish hlast hlastDepth count count' raw' raw''
      unfold Alike at halike hrest hfinish
      simp only [List.map_append, halike, hrest, hfinish, List.map_replicate, List.nil_append, List.append_assoc]
      split <;> rfl

/-! ## Texts -/

/-- A text that ends with a line break is its lines and an empty one behind them. -/
theorem splitLines_of_break {text : List Char} (h : text.getLast? = some '\n') :
    ∃ above, text = above ++ ['\n'] ∧ splitLines text = splitLines above ++ [[]] := by
  obtain ⟨above, rfl⟩ := List.getLast?_eq_some_iff.mp h
  exact ⟨above, rfl, splitLines_append_break above []⟩

/-- At the end of a text without open parentheses the blocks are closed. -/
theorem finish_of_closed {l : Layout} (h : l.depth = 0) (count : Nat) (raw : List Char) :
    l.finish count raw = List.replicate l.indents.length (l.mark .dedent count (raw.length + 1)) ++
      [l.mark .eof count (raw.length + 1)] := by
  simp only [Layout.finish, h, if_true, List.nil_append]

/-- The parentheses that are open at the end of a text are those that its tokens leave open. -/
theorem parens_finish {l last : Layout} {number : Nat} {raws : List (List Char)}
    (h : l.lines number raws = .ok (ts, last)) (count : Nat) (raw : List Char) :
    parensAfter l.depth (ts ++ last.finish count raw) = last.depth := by
  have hmarks : ∀ t ∈ last.finish count raw, t.kind.isOrdinary = false := by
    simpa [ordinary] using finish_marks last count raw
  rw [parensAfter_append, lines_parens h, parensAfter_of_marks hmarks]

/-- Behind a text that ends with a line break and closes its parentheses, a text that opens no block in front of its
first statement has the tokens that it has alone, and the one in front keeps its own but for the last. -/
theorem tokenize_seam {source source' : String} (hbreak : source.toList.getLast? = some '\n')
    (h : tokenize source = .ok ts) (hparens : parensAfter 0 ts = 0) (h' : tokenize source' = .ok us)
    (hfirst : ∀ t ∈ us.head?, t.kind ≠ .indent) :
    ∃ vs, tokenize (source ++ source') = .ok vs ∧ Alike vs (ts.dropLast ++ us) := by
  obtain ⟨above, habove, hsplit⟩ := splitLines_of_break hbreak
  obtain ⟨inner, last, hinner, rfl⟩ := tokenize_ok_iff.mp h
  obtain ⟨inner', last', hinner', rfl⟩ := tokenize_ok_iff.mp h'
  rw [hsplit] at hinner
  obtain ⟨front, next, more, hfront, hmore, rfl⟩ := lines_append_iff.mp hinner
  -- The empty line behind the last line break has no tokens.
  obtain ⟨rfl, hsame, hsameDepth⟩ : more = [] ∧ last.indents = next.indents ∧ last.depth = next.depth := by
    rw [Layout.lines, line_of_blank rfl] at hmore
    cases hmore
    exact ⟨rfl, rfl, rfl⟩
  have hdepth : last.depth = 0 := (parens_finish hinner _ _).symm.trans hparens
  have hindents : ∀ w ∈ next.indents, 0 < w := lines_positive hfront (by simp [Layout.start])
  obtain ⟨vs, bottom, hvs, hsay⟩ := lines_seam (hsameDepth ▸ hdepth) hindents rfl rfl hinner'
    (fun t ht => hfirst t (List.mem_head?_append_of_mem_head? ht)) (1 + (splitLines above).length)
  have hall : splitLines (source ++ source').toList = splitLines above ++ splitLines source'.toList := by
    rw [String.toList_append, habove, List.append_assoc]
    exact splitLines_append_break above source'.toList
  refine ⟨_, tokenize_ok_iff.mpr ⟨front ++ vs, bottom, ?_, rfl⟩, ?_⟩
  · rw [hall]
    exact lines_append_iff.mpr ⟨front, next, vs, hfront, hvs, rfl⟩
  · have hdrop : (front ++ last.finish (splitLines source.toList).length
      ((splitLines source.toList).getLastD [])).dropLast =
        front ++ List.replicate last.indents.length (last.mark .dedent (splitLines source.toList).length
          (((splitLines source.toList).getLastD []).length + 1)) := by
      rw [finish_of_closed hdepth, ← List.append_assoc, List.dropLast_concat]
    rw [List.append_nil, hdrop, Alike, List.append_assoc, List.map_append,
      hsay (splitLines source'.toList).length _ ((splitLines source'.toList).getLastD [])]
    simp [hsame, Layout.mark, content]

end TillLang.Token
