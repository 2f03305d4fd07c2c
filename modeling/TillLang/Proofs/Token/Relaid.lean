/-
  TillLang.Proofs.Token.Relaid — texts that are laid out otherwise.

  Three changes to the layout of a text leave what its tokens say as it was. A carriage return in
  front of every line break moves offsets only, since the lexer drops it from each line
  (`tokenize_withReturns`). A blank line changes nothing that is carried from line to line but the
  number and the offset of the next line (`tokenize_insert`). And inside parentheses a line is
  scanned from its first column without a look at its width, as what stands behind a space is, so two
  lines may be joined by one (`tokenize_join`).
-/

import TillLang.Proofs.Token.Blocks
import TillLang.Proofs.Token.Tiling

namespace TillLang.Token

/-! ## Tokens at the end -/

theorem alike_moved (lines offset : Nat) (ts : List Token) : Alike (ts.map (moved lines offset)) ts := by
  rw [Alike, List.map_map]
  rfl

theorem alike_finish {l l' : Layout} (hindents : l'.indents = l.indents) (hdepth : l'.depth = l.depth)
    (count count' : Nat) (raw raw' : List Char) : Alike (l'.finish count' raw') (l.finish count raw) := by
  unfold Alike Layout.finish
  rw [hindents, hdepth]
  split <;> simp [Layout.mark, content]

/-- What the tokens of a text say, if it has any. -/
def contents (source : String) : Option (List (Kind × String)) := (tokenize source).toOption.map (List.map content)

theorem contents_of_ok {source : String} {ts : List Token} (h : tokenize source = .ok ts) :
    contents source = some (ts.map content) := by
  rw [contents, h]
  rfl

theorem contents_iff {source : String} {cs : List (Kind × String)} :
    contents source = some cs ↔ ∃ ts, tokenize source = .ok ts ∧ ts.map content = cs := by
  unfold contents
  cases tokenize source <;> simp [Except.toOption]

/-! ## Blank lines -/

/-- The text of some lines. -/
def ofLines (lines : List (List Char)) : String := String.ofList (['\n'].intercalate lines)

theorem splitLines_ofLines {lines : List (List Char)} (h : ∀ line ∈ lines, '\n' ∉ line) (hne : lines ≠ []) :
    splitLines (ofLines lines).toList = lines := by
  rw [ofLines, String.toList_ofList, splitLines_eq_splitOn, List.splitOn_intercalate '\n' h hne]

theorem lines_insert {blank : List Char} (h : isBlankLine (dropReturn blank) = true) (l : Layout) (number : Nat)
    (below : List (List Char)) : l.lines number (blank :: below) =
      movedScan 1 (blank.length + 1) (·.moved (blank.length + 1)) (l.lines number below) := by
  rw [← lines_moved, Layout.lines, line_of_blank h]
  simp only [Success.ok_bind, List.nil_append]
  change ((l.moved (blank.length + 1)).lines (number + 1) below >>= fun r => pure (r.1, r.2)) = _
  cases (l.moved (blank.length + 1)).lines (number + 1) below <;> rfl

/-- A blank line may stand anywhere among the lines of a text. -/
theorem tokenize_insert {source : String} {blank : List Char} {above below : List (List Char)}
    (h : splitLines source.toList = above ++ below) (hblank : isBlankLine blank = true) :
    contents (ofLines (above ++ blank :: below)) = contents source := by
  have hspaces : ∀ c ∈ blank, c = ' ' ∨ c = '\t' := by simpa [isBlankLine] using hblank
  have hdropped : isBlankLine (dropReturn blank) = true := by
    simpa [isBlankLine] using fun c hc => hspaces c (mem_of_mem_dropReturn hc)
  have hlines : splitLines (ofLines (above ++ blank :: below)).toList = above ++ blank :: below := by
    refine splitLines_ofLines (fun line hline => ?_) (by simp)
    rcases List.mem_append.mp hline with hline | hline
    · exact unbroken_of_mem_splitLines (h ▸ List.mem_append_left _ hline)
    rcases List.mem_cons.mp hline with rfl | hline
    · exact fun hmem => absurd (hspaces _ hmem) (by decide)
    · exact unbroken_of_mem_splitLines (h ▸ List.mem_append_right _ hline)
  unfold contents tokenize tokenizeChars
  simp only [hlines, h, lines_append_eq, lines_insert hdropped]
  cases Layout.start.lines 1 above with
  | error e => rfl
  | ok r =>
    simp only [Success.ok_bind]
    cases r.2.lines (1 + above.length) below with
    | error e => rfl
    | ok s =>
      simp only [movedScan, Success.ok_map, Success.mapError_ok, Success.ok_bind, Success.pure_eq, Except.toOption,
        Option.map_some, List.map_append, Option.some.injEq]
      have hmoved : Alike (s.1.map (moved 1 (blank.length + 1))) s.1 := alike_moved ..
      have hfinish : ∀ count count' raw raw', Alike ((s.2.moved (blank.length + 1)).finish count' raw')
        (s.2.finish count raw) := alike_finish rfl rfl
      unfold Alike at hmoved hfinish
      rw [hmoved, hfinish]

/-! ## Carriage returns -/

/-- A text with a carriage return in front of every line break. -/
def withReturns (source : String) : String :=
  String.ofList (source.toList.flatMap fun c => if c = '\n' then ['\r', '\n'] else [c])

/-- Lines with a carriage return behind each of them but the last. -/
def returned : List (List Char) → List (List Char)
  | [] => []
  | [raw] => [raw]
  | raw :: next :: rest => (raw ++ ['\r']) :: returned (next :: rest)

theorem returned_cons {raw : List Char} {rest : List (List Char)} (h : rest ≠ []) :
    returned (raw :: rest) = (raw ++ ['\r']) :: returned rest := by
  cases rest with
  | nil => exact absurd rfl h
  | cons next rest => rfl

theorem splitLines_returned (text : List Char) :
    splitLines (text.flatMap fun c => if c = '\n' then ['\r', '\n'] else [c]) = returned (splitLines text) := by
  induction text with
  | nil => rfl
  | cons c rest ih =>
    obtain ⟨line, others, hsplit⟩ := List.exists_cons_of_ne_nil (splitLines_ne_nil rest)
    rw [List.flatMap_cons, splitLines]
    by_cases hc : c = '\n'
    · simp only [hc, if_true]
      rw [returned_cons (splitLines_ne_nil rest), ← ih]
      simp [splitLines]
    · simp only [hc, if_false, List.singleton_append]
      rw [splitLines, if_neg hc, ih, hsplit]
      cases others <;> rfl

/-- What a token says and where, but for its offset. -/
def spot (t : Token) : Kind × String × Location := (t.kind, t.lexeme, t.location)

theorem dropReturn_of_none {raw : List Char} (h : '\r' ∉ raw) : dropReturn raw = raw :=
  if_neg fun hlast => h (List.mem_of_getLast? hlast)

/-- The carriage return behind a line counts for the offset of the next one only. -/
theorem line_return {raw : List Char} (h : '\r' ∉ raw) (l : Layout) (number : Nat) :
    l.line number (raw ++ ['\r']) = (fun r => (r.1, r.2.moved 1)) <$> l.line number raw := by
  have hdrop : dropReturn (raw ++ ['\r']) = raw := by simp [dropReturn]
  have hnext : l.offset + (raw ++ ['\r']).length + 1 = l.offset + raw.length + 1 + 1 := by
    rw [List.length_append]
    rfl
  unfold Layout.line
  simp only [hdrop, dropReturn_of_none h, hnext]
  split
  · rfl
  split
  · cases indentation number raw with
    | error e => rfl
    | ok width =>
      simp only [Success.ok_bind]
      cases l.reindent number width with
      | error e => rfl
      | ok r =>
        simp only [Success.ok_bind]
        cases scanLine number l.offset (raw.drop width) (width + 1) l.depth <;> rfl
  · simp only [Success.pure_eq, Success.ok_bind]
    cases scanLine number l.offset (raw.drop 0) (0 + 1) l.depth <;> rfl

/-- The spots of the tokens of some lines, and what is left open after them. -/
def outline (r : Except Error (List Token × Layout)) :
    Except Error (List (Kind × String × Location) × List Nat × Nat) :=
  (fun r => (r.1.map spot, r.2.indents, r.2.depth)) <$> r

theorem outline_moved (offset : Nat) (r : Except Error (List Token × Layout)) :
    outline (movedScan 0 offset (·.moved offset) r) = outline r := by
  cases r with
  | error e => rfl
  | ok r =>
    simp only [outline, movedScan, Success.ok_map, Success.mapError_ok, List.map_map]
    rfl

theorem outline_after {r r' : Except Error (List Token × Layout)} (h : outline r = outline r') (first : List Token) :
    outline (do let s ← r; return (first ++ s.1, s.2)) = outline (do let s ← r'; return (first ++ s.1, s.2)) := by
  cases r <;> cases r' <;> simp_all [outline]

/-- Lines give the same tokens at the same spots if carriage returns are put behind them. -/
theorem lines_returned {raws : List (List Char)} (h : ∀ raw ∈ raws, '\r' ∉ raw) (l : Layout) (number : Nat) :
    outline (l.lines number (returned raws)) = outline (l.lines number raws) := by
  induction raws generalizing l number with
  | nil => rfl
  | cons raw rest ih =>
    obtain ⟨hraw, hrest⟩ := List.forall_mem_cons.mp h
    cases rest with
    | nil => rfl
    | cons next rest =>
      rw [returned_cons (List.cons_ne_nil next rest), Layout.lines, line_return hraw, Layout.lines]
      cases l.line number raw with
      | error e => rfl
      | ok r =>
        have hlater : outline ((r.2.moved 1).lines (number + 1) (returned (next :: rest))) =
            outline (r.2.lines (number + 1) (next :: rest)) :=
          calc outline ((r.2.moved 1).lines (number + 1) (returned (next :: rest)))
            _ = outline (movedScan 0 1 (·.moved 1) (r.2.lines (number + 1) (returned (next :: rest)))) :=
              congrArg outline (lines_moved 0 1 r.2 (number + 1) _)
            _ = outline (r.2.lines (number + 1) (returned (next :: rest))) := outline_moved 1 _
            _ = outline (r.2.lines (number + 1) (next :: rest)) := ih hrest r.2 (number + 1)
        exact outline_after hlater r.1

theorem spots_finish {l l' : Layout} (hindents : l'.indents = l.indents) (hdepth : l'.depth = l.depth) (count : Nat)
    (raw : List Char) : (l'.finish count raw).map spot = (l.finish count raw).map spot := by
  unfold Layout.finish
  rw [hindents, hdepth]
  split <;> simp [Layout.mark, spot, location]

theorem length_returned (raws : List (List Char)) : (returned raws).length = raws.length := by
  fun_induction returned raws with
  | case1 | case2 => rfl
  | case3 raw next rest ih => simp [ih]

theorem getLast_returned (raws : List (List Char)) : (returned raws).getLast? = raws.getLast? := by
  fun_induction returned raws with
  | case1 | case2 => rfl
  | case3 raw next rest ih => simp only [List.getLast?_cons, ih, Option.getD_some]

/-- Carriage returns in front of line breaks leave the tokens of a text where they are, and its fault. -/
theorem tokenize_withReturns {source : String} (h : '\r' ∉ source.toList) :
    List.map spot <$> tokenize (withReturns source) = List.map spot <$> tokenize source := by
  have hlines := lines_returned (fun raw hraw hmem => h (mem_of_mem_splitLines hraw hmem).1) Layout.start 1
  unfold tokenize tokenizeChars
  simp only [withReturns, String.toList_ofList, splitLines_returned, length_returned, List.getLastD_eq_getLast?,
    getLast_returned]
  cases hreturned : Layout.start.lines 1 (returned (splitLines source.toList)) with
  | error e =>
    rw [hreturned] at hlines
    cases hplain : Layout.start.lines 1 (splitLines source.toList) with
    | error e' =>
      rw [hplain] at hlines
      exact congrArg Except.error (Except.error.inj hlines)
    | ok s =>
      rw [hplain] at hlines
      cases hlines
  | ok r =>
    rw [hreturned] at hlines
    cases hplain : Layout.start.lines 1 (splitLines source.toList) with
    | error e =>
      rw [hplain] at hlines
      cases hlines
    | ok s =>
      rw [hplain] at hlines
      simp only [outline, Success.ok_map, Except.ok.injEq, Prod.mk.injEq] at hlines
      obtain ⟨hspots, hindents, hdepth⟩ := hlines
      simp only [Success.ok_bind, Success.pure_eq, Success.ok_map,
        List.map_append, hspots, spots_finish hindents hdepth]

/-! ## A space behind a text -/

section Space

variable {p : Char → Bool} {more : List Char}

theorem takeWhile_space (hp : p ' ' = false) (cs : List Char) : (cs ++ ' ' :: more).takeWhile p = cs.takeWhile p := by
  induction cs with
  | nil => simp [hp]
  | cons c cs ih => simp only [List.cons_append, List.takeWhile_cons, ih]

theorem dropWhile_space (hp : p ' ' = false) (cs : List Char) :
    (cs ++ ' ' :: more).dropWhile p = cs.dropWhile p ++ ' ' :: more := by
  induction cs with
  | nil => simp [hp]
  | cons c cs ih =>
    simp only [List.cons_append, List.dropWhile_cons, ih]
    split <;> rfl

variable (more)

theorem numberText_space (cs : List Char) : numberText (cs ++ ' ' :: more) = numberText cs := by
  have hspace : isDigit ' ' = false := by decide
  unfold numberText
  simp only [takeWhile_space hspace, dropWhile_space hspace]
  rcases cs.dropWhile isDigit with _ | ⟨c, _ | ⟨d, rest⟩⟩
  · simp
  · by_cases hc : c = '.'
    · simp [hc, hspace]
    · simp [hc]
  · by_cases hc : c = '.'
    · simp [hc, takeWhile_space hspace]
    · simp [hc]

theorem quotedTail_cons {quote c : Char} (hc : c ≠ '\\') (unterminated : Fault) (offset : Nat) (rest : List Char) :
    quotedTail quote unterminated offset (c :: rest) =
      if c = quote then .ok ([c], 0)
      else (fun r => (c :: r.1, r.2 + 1)) <$> quotedTail quote unterminated (offset + 1) rest := by
  rw [quotedTail]
  · exact fun hslash => absurd hslash hc
  · exact fun _ _ hslash => absurd hslash hc

theorem quotedTail_append {quote : Char} {unterminated : Fault} {offset : Nat} {cs : List Char} {r : List Char × Nat}
    (h : quotedTail quote unterminated offset cs = .ok r) :
    quotedTail quote unterminated offset (cs ++ more) = .ok r := by
  fun_induction quotedTail quote unterminated offset cs generalizing r with
  | case1 | case2 | case4 => cases h
  | case3 offset e rest he ih =>
    obtain ⟨r, htail, rfl⟩ := Success.map_iff.mp h
    rw [List.cons_append, List.cons_append, quotedTail, if_pos he, ih htail]
    rfl
  | case5 offset rest hlast hescape =>
    have hslash : quote ≠ '\\' := fun hslash => by
      cases rest with
      | nil => exact hlast hslash rfl
      | cons e rest => exact hescape e rest hslash rfl
    rw [List.cons_append, quotedTail_cons hslash, if_pos rfl, h]
  | case6 offset c rest hlast hescape hquote ih =>
    have hslash : c ≠ '\\' := fun hslash => by
      cases rest with
      | nil => exact hlast hslash rfl
      | cons e rest => exact hescape e rest hslash rfl
    obtain ⟨r, htail, rfl⟩ := Success.map_iff.mp h
    rw [List.cons_append, quotedTail_cons hslash, if_neg hquote, ih htail]
    rfl

theorem opText_space {cs text : List Char} (h : opText? cs = some text) : opText? (cs ++ ' ' :: more) = some text := by
  unfold opText? at h
  split at h
  · exact h
  · exact h
  · rename_i c rest hequals harrow
    rw [List.cons_append, opText?]
    · exact h
    · cases rest with
      | nil => simp
      | cons d rest => simpa using hequals
    · cases rest with
      | nil => simp
      | cons d rest => simpa using harrow
  · cases h

/-- A token does not go on behind a space. -/
theorem lexemeAt_space {c : Char} {rest text : List Char} {kind : Kind} (h : lexemeAt c rest = .ok (kind, text)) :
    lexemeAt c (rest ++ ' ' :: more) = .ok (kind, text) := by
  have hspace : isWordChar ' ' = false := by decide
  unfold lexemeAt at h ⊢
  simp only [takeWhile_space hspace, ← List.cons_append, numberText_space]
  split at h
  · cases h
  rename_i htab
  rw [if_neg htab]
  split at h
  · rename_i hword
    rw [if_pos hword]
    exact h
  rename_i hword
  rw [if_neg hword]
  split at h
  · rename_i hdigit
    rw [if_pos hdigit]
    exact h
  rename_i hdigit
  rw [if_neg hdigit]
  split at h
  · rename_i hquote
    obtain ⟨_, hs, h⟩ := Success.map_iff.mp h
    cases h
    obtain ⟨r, htail, rfl⟩ := Success.map_iff.mp hs
    rw [if_pos hquote, stringText, quotedTail_append _ htail]
    rfl
  rename_i hdouble
  rw [if_neg hdouble]
  split at h
  · rename_i hquote
    obtain ⟨_, hs, h⟩ := Success.map_iff.mp h
    cases h
    obtain ⟨r, htail, hs⟩ := Success.bind_iff.mp hs
    rw [if_pos hquote, charText, quotedTail_append _ htail, Success.ok_bind, hs]
    rfl
  rename_i hsingle
  rw [if_neg hsingle]
  split at h
  · rename_i hop
    rw [opText_space more hop]
    exact h
  · cases h

/-- What stands behind a space is scanned on its own. -/
theorem scanLine_space {line offset column depth depth' : Nat} {cs : List Char} {ts : List Token}
    (h : scanLine line offset cs column depth = .ok (ts, depth')) :
    scanLine line offset (cs ++ ' ' :: more) column depth =
      (fun r => (ts ++ r.1, r.2)) <$> scanLine line offset more (column + cs.length + 1) depth' := by
  fun_induction scanLine line offset cs column depth generalizing ts with
  | case1 column depth =>
    cases h
    rw [List.nil_append, scanLine, if_pos rfl]
    simp only [List.length_nil, Nat.add_zero]
    cases scanLine line offset more (column + 1) depth' <;> rfl
  | case2 column depth rest ih =>
    have hcolumn : column + (rest.length + 1) = column + 1 + rest.length := by omega
    rw [List.cons_append, scanLine, if_pos rfl, ih h, List.length_cons, hcolumn]
  | case3 => cases h
  | case4 column depth c rest hc kind text hlex =>
    rename_i ih
    obtain ⟨⟨others, d⟩, hothers, h⟩ := Success.map_iff.mp h
    cases h
    have hlen := (lexemeAt_isPrefix hlex).length_le
    have hpos := List.length_pos_iff.mpr (lexemeAt_ne_nil hlex)
    rw [List.length_cons] at hlen
    have hdrop : (rest ++ ' ' :: more).drop (text.length - 1) = rest.drop (text.length - 1) ++ ' ' :: more :=
      List.drop_append_of_le_length (by omega)
    have hcolumn : column + text.length + (rest.drop (text.length - 1)).length = column + (c :: rest).length := by
      rw [List.length_drop, List.length_cons]
      omega
    rw [List.cons_append, scanLine, if_neg hc, lexemeAt_space more hlex]
    simp only [hdrop, ih hothers, hcolumn]
    cases scanLine line offset more (column + (c :: rest).length + 1) depth' <;> rfl

end Space

/-- A text is scanned as tokens that say the same wherever it stands. -/
theorem scanLine_alike {line offset column depth depth' : Nat} {cs : List Char} {ts : List Token}
    (h : scanLine line offset cs column depth = .ok (ts, depth')) (line' offset' column' : Nat) :
    ∃ us, scanLine line' offset' cs column' depth = .ok (us, depth') ∧ Alike us ts := by
  fun_induction scanLine line offset cs column depth generalizing ts column' with
  | case1 =>
    cases h
    exact ⟨[], by rw [scanLine], rfl⟩
  | case2 column depth rest ih =>
    rw [scanLine, if_pos rfl]
    exact ih h (column' + 1)
  | case3 => cases h
  | case4 column depth c rest hc kind text hlex token =>
    rename_i ih
    obtain ⟨⟨others, d⟩, hothers, h⟩ := Success.map_iff.mp h
    cases h
    obtain ⟨us, hus, halike⟩ := ih hothers (column' + text.length)
    refine ⟨⟨kind, String.ofList text, line', column', offset' + column' - 1⟩ :: us, ?_, ?_⟩
    · rw [scanLine, if_neg hc, hlex]
      simp only [hus, Success.ok_map]
    · exact alike_cons.mpr ⟨_, us, rfl, rfl, halike⟩

/-! ## Joined lines -/

/-- The width of a line that is not only spaces does not change with what is behind it. -/
theorem indentation_append {number width : Nat} {text : List Char} (h : indentation number text = .ok width)
    (htext : ∃ c ∈ text, c ≠ ' ') (more : List Char) : indentation number (text ++ more) = .ok width := by
  have hshort : (text.takeWhile (· = ' ')).length < text.length := by
    refine Nat.lt_of_le_of_ne (List.takeWhile_sublist _).length_le fun hlen => ?_
    obtain ⟨c, hc, hspace⟩ := htext
    rw [← (List.takeWhile_prefix _).eq_of_length hlen] at hc
    exact hspace (by simpa using List.all_eq_true.mp List.all_takeWhile c hc)
  have htake : (text ++ more).takeWhile (· = ' ') = text.takeWhile (· = ' ') := by
    rw [List.takeWhile_append, if_neg (Nat.ne_of_lt hshort)]
  have hdrop : text.drop (text.takeWhile (· = ' ')).length ≠ [] := by simpa using hshort
  unfold indentation at h ⊢
  simp only [htake, List.drop_append_of_le_length (Nat.le_of_lt hshort), List.head?_append_of_ne_nil _ hdrop]
  exact h

/-- Inside parentheses a line may go on with the next one, behind a space. -/
theorem line_join {l next last : Layout} {number : Nat} {first second : List Char} {ts us : List Token}
    (hfirst : l.line number first = .ok (ts, next)) (hsecond : next.line (number + 1) second = .ok (us, last))
    (hdepth : 0 < next.depth) (htext : isBlankLine first = false) (htext' : isBlankLine second = false)
    (hreturn : '\r' ∉ first ++ ' ' :: second) :
    ∃ vs, l.line number (first ++ ' ' :: second) = .ok (vs, last) ∧ Alike vs (ts ++ us) := by
  have hdrop := dropReturn_of_none hreturn
  obtain ⟨hreturn₁, hreturn₂⟩ := not_or.mp (mt List.mem_append.mpr hreturn)
  have hdrop₁ := dropReturn_of_none hreturn₁
  have hdrop₂ := dropReturn_of_none (mt (List.mem_cons_of_mem ' ') hreturn₂)
  obtain ⟨width, front, indents, body, depth, hopen, hbody, -, rfl, rfl⟩ := line_of_text hfirst (by rwa [hdrop₁])
  obtain ⟨width', front', indents', body', depth', hopen', hbody', -, rfl, rfl⟩ :=
    line_of_text hsecond (by rwa [hdrop₂])
  rw [hdrop₁] at hopen hbody
  rw [hdrop₂] at hopen' hbody'
  unfold Layout.Opens at hopen'
  rw [if_neg (Nat.ne_of_gt hdepth)] at hopen'
  obtain ⟨rfl, rfl, rfl⟩ := hopen'
  have hwidth : width ≤ first.length := by
    have hlen := congrArg List.length hopen.spaces
    rw [List.length_take, List.length_replicate] at hlen
    omega
  have hchar : ∃ c ∈ first, c ≠ ' ' := by
    obtain ⟨c, hc, hspace, -⟩ : ∃ c ∈ first, c ≠ ' ' ∧ c ≠ '\t' := by simpa [isBlankLine] using htext
    exact ⟨c, hc, hspace⟩
  have hopens : l.Opens number (first ++ ' ' :: second) width front indents' := by
    unfold Layout.Opens at hopen ⊢
    split at hopen
    · rename_i hzero
      rw [if_pos hzero]
      exact ⟨indentation_append hopen.1 hchar _, hopen.2⟩
    · rename_i hzero
      rwa [if_neg hzero]
  -- What the second line holds is scanned behind the first one as it was on its own.
  obtain ⟨more, hmore, halike⟩ := scanLine_alike hbody' number l.offset (width + 1 + (first.drop width).length + 1)
  have hscan : scanLine number l.offset ((first ++ ' ' :: second).drop width) (width + 1) l.depth =
      .ok (body ++ more, depth') := by
    rw [List.drop_append_of_le_length hwidth, scanLine_space second hbody]
    exact congrArg (_ <$> ·) hmore
  have hjoined : isBlankLine (first ++ ' ' :: second) = false := by
    unfold isBlankLine at htext ⊢
    rw [List.all_append, htext, Bool.false_and]
  have hoffset : l.offset + (first ++ ' ' :: second).length + 1 = l.offset + first.length + 1 + second.length + 1 := by
    rw [List.length_append, List.length_cons]
    omega
  rw [← hdrop] at hopens hscan hjoined
  refine ⟨_, by rw [line_of_opens hjoined hopens hscan, hoffset], ?_⟩
  rw [if_neg (Nat.ne_of_gt hdepth)]
  simp only [List.append_nil, List.nil_append, List.append_assoc]
  refine Alike.append rfl (Alike.append rfl (halike.append ?_))
  split <;> rfl

theorem lines_join {l next last : Layout} {number : Nat} {above below : List (List Char)} {first second : List Char}
    {ts us : List Token} (hopen : l.lines number (above ++ [first]) = .ok (us, next)) (hdepth : 0 < next.depth)
    (htext : isBlankLine first = false) (htext' : isBlankLine second = false) (hreturn : '\r' ∉ first ++ ' ' :: second)
    (h : l.lines number (above ++ first :: second :: below) = .ok (ts, last)) :
    ∃ vs last', l.lines number (above ++ (first ++ ' ' :: second) :: below) = .ok (vs, last') ∧ Alike vs ts ∧
      last.indents = last'.indents ∧ last.depth = last'.depth := by
  obtain ⟨ts₀, l₀, _, habove, hlines, rfl⟩ := lines_append_iff.mp h
  obtain ⟨ts₁, l₁, _, hfirst, hlines', rfl⟩ := lines_cons_iff.mp hlines
  obtain ⟨ts₂, l₂, ts₃, hsecond, hbelow, rfl⟩ := lines_cons_iff.mp hlines'
  have hnext : l₁ = next := by
    rw [lines_append_eq, habove, Success.ok_bind, Layout.lines, hfirst] at hopen
    cases hopen
    rfl
  subst hnext
  obtain ⟨vs, hvs, halike⟩ := line_join hfirst hsecond hdepth htext htext' hreturn
  -- The lines below stand one line further up.
  have hmoved := lines_moved 1 0 l₂ (number + above.length + 1) below
  rw [show l₂.moved 0 = l₂ from rfl, hbelow] at hmoved
  obtain ⟨⟨us, last'⟩, hlast, hresult⟩ := Success.map_iff.mp (Success.mapError_iff.mp hmoved.symm)
  obtain ⟨rfl, rfl⟩ := Prod.mk.inj hresult
  refine ⟨ts₀ ++ (vs ++ us), last', ?_, ?_, rfl, rfl⟩
  · exact lines_append_iff.mpr ⟨_, _, _, habove, lines_cons_iff.mpr ⟨_, _, _, hvs, hlast, rfl⟩, rfl⟩
  · rw [← List.append_assoc ts₁]
    exact Alike.append rfl (halike.append (alike_moved 1 0 us).symm)

/-- Two lines may be joined by a space inside parentheses, if neither is blank. -/
theorem tokenize_join {source : String} {a b : List Char} {l : Layout} {ts us : List Token}
    (hsource : source.toList = a ++ '\n' :: b) (hreturn : '\r' ∉ source.toList)
    (hopen : Layout.start.lines 1 (splitLines a) = .ok (us, l)) (hdepth : 0 < l.depth)
    (ha : isBlankLine (lastLine a) = false) (hb : isBlankLine (firstLine b) = false) (h : tokenize source = .ok ts) :
    ∃ vs, tokenize (String.ofList (a ++ ' ' :: b)) = .ok vs ∧ Alike vs ts := by
  obtain ⟨above, hsplit⟩ := splitLines_lastLine a
  obtain ⟨below, hsplit'⟩ := splitLines_firstLine b
  have hspace : splitLines (' ' :: b) = (' ' :: firstLine b) :: below := by
    rw [splitLines, if_neg (by decide), hsplit']
  have hlines : splitLines source.toList = above ++ lastLine a :: firstLine b :: below := by
    rw [hsource, splitLines_append_break, hsplit, hsplit', List.append_assoc]
    rfl
  have hjoined : splitLines (a ++ ' ' :: b) = above ++ (lastLine a ++ ' ' :: firstLine b) :: below :=
    splitLines_append hsplit hspace
  have hfree : '\r' ∉ lastLine a ++ ' ' :: firstLine b := fun hmem => by
    have hmem := (mem_of_mem_splitLines (hjoined ▸ List.mem_append_right above List.mem_cons_self) hmem).1
    rw [hsource] at hreturn
    simp_all
  obtain ⟨inner, last, hinner, rfl⟩ := tokenize_ok_iff.mp h
  rw [hlines] at hinner
  rw [hsplit] at hopen
  rw [← @String.toList_ofList (a ++ ' ' :: b)] at hjoined
  obtain ⟨vs, last', hvs, halike, hindents, hdepth'⟩ := lines_join hopen hdepth ha hb hfree hinner
  rw [← hjoined] at hvs
  exact ⟨_, tokenize_ok_iff.mpr ⟨vs, last', hvs, rfl⟩, halike.append (alike_finish hindents.symm hdepth'.symm ..)⟩

end TillLang.Token
