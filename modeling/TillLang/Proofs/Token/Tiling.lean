/-
  TillLang.Proofs.Token.Tiling — the tokens of a text and the characters between them.

  Read from its start, a text is a row of tokens and of single characters that belong to no
  token. `Tiles` is this row: a token stands where its place and its offset say and goes as far
  as it can, and a character between tokens is a space, the end of a line, or a tab on a line
  that is blank. The lexer lays the row line by line (`line_tiles`), and within a line from
  token to token (`scanLine_tiles`).

  Proved: every token is found in the text at its place, no two tokens overlap, and what no
  token covers is blank (`tokens_tile`).
-/

import TillLang.Proofs.Token.Lines
import TillLang.Proofs.Token.Places

namespace TillLang.Token

/-! ## Tilings -/

/-- The place right behind a text. -/
def placeAfter (text : List Char) : Location := ⟨text.count '\n' + 1, (lastLine text).length + 1⟩

/-- The characters that belong to no token, by what stands before and after them. -/
inductive IsGap (before after : List Char) : Char → Prop
  | space : IsGap before after ' '
  | lineBreak : IsGap before after '\n'
  /-- A carriage return only ends a line or the text. -/
  | carriageReturn (h : ∀ c ∈ after.head?, c = '\n') : IsGap before after '\r'
  | blankLine (h : isBlankLine (dropReturn (lastLine before ++ '\t' :: firstLine after)) = true) :
      IsGap before after '\t'

/-- A token does not go on with what follows it. -/
structure Longest (kind : Kind) (text after : List Char) : Prop where
  word : kind = .name ∨ kind = .keyword ∨ kind = .bool → ∀ c ∈ after.head?, isWordChar c = false
  number : kind = .number → ∀ c ∈ after.head?, isDigit c = false
  equals : text = ['='] → after.head? ≠ some '='
  minus : text = ['-'] → after.head? ≠ some '>'

/-- The text behind `before` as a row of the given tokens and of characters that belong to none. -/
inductive Tiles : List Char → List Char → List Token → Prop
  | done {before : List Char} : Tiles before [] []
  | gap {before after : List Char} {c : Char} {ts : List Token} (hc : IsGap before after c)
      (h : Tiles (before ++ [c]) after ts) : Tiles before (c :: after) ts
  | token {before after : List Char} {t : Token} {ts : List Token} (hne : t.lexeme.toList ≠ [])
      (hstart : t.start = before.length) (hplace : t.location = placeAfter before)
      (hlong : Longest t.kind t.lexeme.toList after) (h : Tiles (before ++ t.lexeme.toList) after ts) :
      Tiles before (t.lexeme.toList ++ after) (t :: ts)

variable {before after tail cs : List Char} {ts us : List Token}

/-- Several characters in a row that belong to no token. -/
theorem Tiles.gaps {blank : List Char}
    (hblank : ∀ front c back, blank = front ++ c :: back → IsGap (before ++ front) (back ++ after) c)
    (h : Tiles (before ++ blank) after ts) : Tiles before (blank ++ after) ts := by
  induction blank generalizing before with
  | nil => simpa using h
  | cons c blank ih =>
    refine .gap (by simpa using hblank [] c blank rfl) (ih (fun front d back hsplit => ?_) (by simpa using h))
    simpa using hblank (c :: front) d back (by rw [hsplit]; rfl)

theorem isGap_of_spaces {blank : List Char} (h : ∀ c ∈ blank, c = ' ') {front back : List Char} {c : Char}
    (hsplit : blank = front ++ c :: back) : IsGap before after c := by
  rw [h c (by simp [hsplit])]
  exact .space

/-! ## One token -/

theorem head?_dropWhile {p : Char → Bool} {cs : List Char} : ∀ c ∈ (cs.dropWhile p).head?, p c = false := by
  intro c hc
  have := List.head?_dropWhile_not p cs
  rw [Option.mem_def] at hc
  simpa [hc] using this

/-- The digits of a number do not go on behind it. -/
theorem numberText_stops {cs after : List Char} (h : cs = numberText cs ++ after) :
    ∀ c ∈ after.head?, isDigit c = false := by
  have hsplit := List.takeWhile_append_dropWhile (p := isDigit) (l := cs)
  have hwhole : cs = cs.takeWhile isDigit ++ after → ∀ c ∈ after.head?, isDigit c = false := by
    intro h
    rw [← List.append_cancel_left (hsplit.trans h)]
    exact head?_dropWhile
  unfold numberText at h
  simp only at h
  split at h
  · rename_i d rest hdrop
    split at h
    · have hrest : rest = rest.takeWhile isDigit ++ after := by
        rw [hdrop] at hsplit
        rw [List.append_assoc] at h
        simpa using List.append_cancel_left (hsplit.trans h)
      rw [← List.append_cancel_left (List.takeWhile_append_dropWhile.trans hrest)]
      exact head?_dropWhile
    · exact hwhole h
  · exact hwhole h

/-- A token that is neither a word nor a number, nor an operator that could go on. -/
theorem longest_of_other {kind : Kind} {text after : List Char}
    (hkind : kind ≠ .name ∧ kind ≠ .keyword ∧ kind ≠ .bool ∧ kind ≠ .number) (htext : text ≠ ['='] ∧ text ≠ ['-']) :
    Longest kind text after where
  word h := by rcases h with h | h | h <;> simp_all
  number h := absurd h hkind.2.2.2
  equals h := absurd h htext.1
  minus h := absurd h htext.2

theorem longest_op {cs text after : List Char} (h : opText? cs = some text) (hsplit : cs = text ++ after) :
    Longest .op text after := by
  refine ⟨by simp, by simp, ?_, ?_⟩
  all_goals
    rintro rfl hnext
    obtain ⟨rest, rfl⟩ : ∃ rest, after = _ :: rest := ⟨_, (List.eq_cons_of_mem_head? hnext)⟩
    subst hsplit
    simp [opText?] at h

/-- What the lexer takes is the longest token. -/
theorem lexemeAt_longest {c : Char} {rest text after : List Char} {kind : Kind}
    (h : lexemeAt c rest = .ok (kind, text)) (hsplit : c :: rest = text ++ after) : Longest kind text after := by
  unfold lexemeAt at h
  split at h
  · cases h
  split at h
  · rename_i hc
    cases h
    have hrest : rest = rest.takeWhile isWordChar ++ after := (List.cons.inj hsplit).2
    rw [← List.append_cancel_left (List.takeWhile_append_dropWhile.trans hrest)]
    refine ⟨fun _ => head?_dropWhile, fun hk => ?_, fun ht => ?_, fun ht => ?_⟩
    · unfold wordKind at hk
      split at hk
      · cases hk
      · split at hk <;> cases hk
    · rw [(List.cons.inj ht).1] at hc
      exact absurd hc (by decide)
    · rw [(List.cons.inj ht).1] at hc
      exact absurd hc (by decide)
  split at h
  · rename_i hc
    cases h
    have hhead : ∀ d, numberText (c :: rest) = [d] → isDigit d = true := fun d hd => by
      rw [hd] at hsplit
      rwa [← (List.cons.inj hsplit).1]
    refine ⟨by simp, fun _ => numberText_stops hsplit, fun ht => ?_, fun ht => ?_⟩
    · exact absurd (hhead _ ht) (by decide)
    · exact absurd (hhead _ ht) (by decide)
  split at h
  · obtain ⟨_, hs, h⟩ := Success.map_iff.mp h
    cases h
    obtain ⟨_, -, rfl⟩ := Success.map_iff.mp hs
    exact longest_of_other (by simp) (by simp)
  split at h
  · obtain ⟨_, hs, h⟩ := Success.map_iff.mp h
    cases h
    obtain ⟨_, -, hs⟩ := Success.bind_iff.mp hs
    simp only at hs
    split at hs
    · cases hs
      exact longest_of_other (by simp) (by simp)
    · cases hs
  split at h
  · rename_i hop
    cases h
    exact longest_op hop hsplit
  · cases h

/-- What ends a line goes on with no token. -/
theorem Longest.append {kind : Kind} {text after : List Char} (h : Longest kind text after)
    (htail : ∀ c ∈ tail.head?, c = '\n' ∨ c = '\r') : Longest kind text (after ++ tail) := by
  cases after with
  | cons c after => exact ⟨h.word, h.number, h.equals, h.minus⟩
  | nil =>
    refine ⟨fun _ c hc => ?_, fun _ c hc => ?_, fun _ hc => ?_, fun _ hc => ?_⟩
    · rcases htail c hc with rfl | rfl <;> decide
    · rcases htail c hc with rfl | rfl <;> decide
    · exact absurd (htail _ hc) (by decide)
    · exact absurd (htail _ hc) (by decide)

/-! ## One line -/

/-- The rest of a line is laid from token to token. -/
theorem scanLine_tiles {line offset column depth depth' : Nat}
    (h : scanLine line offset cs column depth = .ok (ts, depth')) (hline : line = before.count '\n' + 1)
    (hcolumn : column = (lastLine before).length + 1) (hoffset : offset + column = before.length + 1)
    (hcs : '\n' ∉ cs) (htail : ∀ c ∈ tail.head?, c = '\n' ∨ c = '\r') (hrest : Tiles (before ++ cs) tail us) :
    Tiles before (cs ++ tail) (ts ++ us) := by
  fun_induction scanLine line offset cs column depth generalizing ts before with
  | case1 =>
    cases h
    simpa using hrest
  | case2 column depth rest ih =>
    have hspace : '\n' ∉ [' '] := by decide
    refine .gap .space (ih h ?_ ?_ ?_ (fun hmem => hcs (List.mem_cons_of_mem _ hmem)) (by simpa using hrest))
    · simpa using hline
    · rw [lastLine_append hspace, hcolumn]
      simp
    · simp only [List.length_append, List.length_singleton]
      omega
  | case3 => cases h
  | case4 column depth c rest hc kind text hlex token =>
    rename_i ih
    obtain ⟨⟨others, d⟩, hothers, h⟩ := Success.map_iff.mp h
    cases h
    obtain ⟨more, hmore⟩ := lexemeAt_isPrefix hlex
    have hpos := List.length_pos_iff.mpr (lexemeAt_ne_nil hlex)
    have hdrop : rest.drop (text.length - 1) = more := by
      have := congrArg (List.drop text.length) hmore
      rw [List.drop_left] at this
      rw [this, ← Nat.sub_add_cancel hpos, List.drop_succ_cons, Nat.add_sub_cancel]
    rw [hdrop] at ih hothers
    rw [← hmore] at hcs hrest ⊢
    obtain ⟨htext, hmoreFree⟩ := not_or.mp (mt List.mem_append.mpr hcs)
    have hlong := (lexemeAt_longest hlex hmore.symm).append htail
    rw [List.append_assoc, List.cons_append]
    have hlist : token.lexeme.toList = text := String.toList_ofList
    rw [← hlist] at hlong hpos ih hothers hrest ⊢
    refine .token (List.length_pos_iff.mp hpos) ?_ ?_ hlong (ih hothers ?_ ?_ ?_ hmoreFree (by simpa using hrest))
    · show offset + column - 1 = before.length
      omega
    · show (⟨line, column⟩ : Location) = placeAfter before
      rw [placeAfter, hline, hcolumn]
    · rw [hlist, List.count_append, List.count_eq_zero.mpr htext, Nat.add_zero]
      exact hline
    · rw [hlist, lastLine_append htext, hcolumn, List.length_append]
      omega
    · rw [hlist, List.length_append]
      omega

/-- A line starts right behind a text. -/
structure Layout.StartsAfter (l : Layout) (number : Nat) (before : List Char) : Prop where
  offset : l.offset = before.length
  number : number = before.count '\n' + 1
  fresh : lastLine before = []

theorem dropReturn_cases (raw : List Char) :
    raw = dropReturn raw ∨ raw = dropReturn raw ++ ['\r'] := by
  unfold dropReturn
  split
  · rename_i h
    obtain ⟨front, rfl⟩ := List.getLast?_eq_some_iff.mp h
    simp
  · exact .inl rfl

/-- All that is dropped of a line is a carriage return at its end. -/
theorem mem_dropReturn {raw front back : List Char} {c : Char} (h : raw = front ++ c :: back) :
    c ∈ dropReturn raw ∨ c = '\r' ∧ back = [] := by
  unfold dropReturn
  split
  · rename_i hlast
    rcases List.eq_nil_or_concat' back with rfl | ⟨back, d, rfl⟩
    · rw [h, List.getLast?_concat] at hlast
      exact .inr ⟨Option.some.inj hlast, rfl⟩
    · left
      rw [h, ← List.cons_append, ← List.append_assoc, List.dropLast_concat]
      simp
  · exact .inl (by simp [h])

theorem mem_of_mem_dropReturn {raw : List Char} {c : Char} (h : c ∈ dropReturn raw) : c ∈ raw := by
  unfold dropReturn at h
  split at h
  · exact (List.dropLast_sublist raw).subset h
  · exact h

/-- A line without the carriage return at its end is laid, and so is the line. -/
theorem Tiles.ofDropReturn {raw : List Char} (htail : ∀ c ∈ tail.head?, c = '\n')
    (h : Tiles (before ++ raw) tail us)
    (hlay : ∀ {tail' : List Char}, (∀ c ∈ tail'.head?, c = '\n' ∨ c = '\r') →
      Tiles (before ++ dropReturn raw) tail' us → Tiles before (dropReturn raw ++ tail') ts) :
    Tiles before (raw ++ tail) ts := by
  rcases dropReturn_cases raw with hraw | hraw
  · rw [hraw] at h ⊢
    exact hlay (fun c hc => .inl (htail c hc)) h
  · rw [hraw] at h ⊢
    rw [List.append_assoc]
    refine hlay (by simp) (.gap (.carriageReturn htail) ?_)
    rwa [List.append_assoc]

theorem firstLine_tail (htail : ∀ c ∈ tail.head?, c = '\n') : firstLine tail = [] := by
  cases tail with
  | nil => rfl
  | cons c tail => simp [firstLine, htail c rfl]

/-- A blank line holds no token. -/
theorem blank_tiles {raw : List Char} (hblank : isBlankLine (dropReturn raw) = true) (hraw : '\n' ∉ raw)
    (hfresh : lastLine before = []) (htail : ∀ c ∈ tail.head?, c = '\n') (h : Tiles (before ++ raw) tail us) :
    Tiles before (raw ++ tail) us := by
  refine Tiles.gaps (fun front c back hsplit => ?_) h
  have hfront : '\n' ∉ front := fun hmem => hraw (by simp [hsplit, hmem])
  have hback : '\n' ∉ back := fun hmem => hraw (by simp [hsplit, hmem])
  have hline : lastLine (before ++ front) ++ c :: firstLine (back ++ tail) = raw := by
    rw [lastLine_append hfront, hfresh, firstLine_append hback, firstLine_tail htail, List.append_nil, List.nil_append,
      hsplit]
  have hc : c = ' ' ∨ c = '\t' ∨ c = '\r' ∧ back = [] := by
    rcases mem_dropReturn hsplit with hmem | hreturn
    · have hblank := List.all_eq_true.mp hblank c hmem
      simp only [Bool.or_eq_true, decide_eq_true_eq] at hblank
      exact hblank.imp_right .inl
    · exact .inr (.inr hreturn)
  rcases hc with rfl | rfl | ⟨rfl, rfl⟩
  · exact .space
  · exact .blankLine (by rw [hline]; exact hblank)
  · exact .carriageReturn htail

/-- A line is laid as a whole. -/
theorem line_tiles {l next : Layout} {number : Nat} {raw : List Char} (h : l.line number raw = .ok (ts, next))
    (hstart : l.StartsAfter number before) (hraw : '\n' ∉ raw) (htail : ∀ c ∈ tail.head?, c = '\n')
    (hrest : Tiles (before ++ raw) tail us) : Tiles before (raw ++ tail) (ordinary ts ++ us) := by
  rcases line_cases h with ⟨hblank, rfl, -⟩ | ⟨width, front, indents, body, depth, hopen, hbody, rfl, -⟩
  · exact blank_tiles hblank hraw hstart.fresh htail hrest
  · rw [hopen.ordinary hbody newline_of_ending]
    refine Tiles.ofDropReturn htail hrest fun {tail'} htail' hrest' => ?_
    have hsplit : List.replicate width ' ' ++ (dropReturn raw).drop width = dropReturn raw := by
      rw [← hopen.spaces, List.take_append_drop]
    have hunbroken : '\n' ∉ (dropReturn raw).drop width := fun hmem =>
      hraw (mem_of_mem_dropReturn (List.mem_of_mem_drop hmem))
    have hspaces : '\n' ∉ List.replicate width ' ' := by simp
    rw [← hsplit, List.append_assoc]
    refine Tiles.gaps (fun _ _ _ => isGap_of_spaces fun c => List.eq_of_mem_replicate)
      (scanLine_tiles hbody ?_ ?_ ?_ hunbroken htail' (by rwa [List.append_assoc, hsplit]))
    · rw [List.count_append, List.count_eq_zero.mpr hspaces]
      exact hstart.number
    · rw [lastLine_append hspaces, hstart.fresh]
      simp
    · rw [hstart.offset, List.length_append, List.length_replicate]
      omega

/-! ## All lines -/

theorem Layout.StartsAfter.next {l next : Layout} {number : Nat} {raw : List Char} (h : l.StartsAfter number before)
    (hraw : '\n' ∉ raw) (hnext : next.offset = l.offset + raw.length + 1) :
    next.StartsAfter (number + 1) (before ++ raw ++ ['\n']) where
  offset := by
    rw [hnext, h.offset]
    simp
    omega
  number := by simp [List.count_append, List.count_eq_zero.mpr hraw, h.number]
  fresh := lastLine_append_break _

theorem line_offset {l next : Layout} {number : Nat} {raw : List Char} (h : l.line number raw = .ok (ts, next)) :
    next.offset = l.offset + raw.length + 1 := by
  rcases line_cases h with ⟨-, -, rfl⟩ | ⟨_, _, _, _, _, -, -, -, rfl⟩ <;> rfl

/-- The lines of a text are laid one after the other, with line breaks between them. -/
theorem lines_tiles {l last : Layout} {number : Nat} {raws : List (List Char)}
    (h : l.lines number raws = .ok (ts, last))
    (hstart : l.StartsAfter number before) (hraws : ∀ raw ∈ raws, '\n' ∉ raw) :
    Tiles before (['\n'].intercalate raws) (ordinary ts) := by
  induction raws generalizing l number ts before with
  | nil =>
    cases h
    exact .done
  | cons raw rest ih =>
    obtain ⟨first, next, others, hfirst, hothers, rfl⟩ := lines_cons_iff.mp h
    obtain ⟨hraw, hrest⟩ := List.forall_mem_cons.mp hraws
    rw [ordinary_append]
    cases rest with
    | nil =>
      cases hothers
      have hlast : Tiles before (raw ++ []) (ordinary first ++ []) := line_tiles hfirst hstart hraw (by simp) .done
      simpa [ordinary] using hlast
    | cons raw' rest =>
      have hlater := ih hothers (hstart.next hraw (line_offset hfirst)) hrest
      rw [List.intercalate_cons_cons, List.append_assoc, List.singleton_append]
      exact line_tiles hfirst hstart hraw (by simp) (.gap .lineBreak hlater)

/-- The tokens of a text tile it. -/
theorem tokenize_tiles {source : String} (h : tokenize source = .ok ts) : Tiles [] source.toList (ordinary ts) := by
  obtain ⟨inner, last, hinner, rfl⟩ := tokenize_ok_iff.mp h
  rw [ordinary_append, finish_marks, List.append_nil, ← intercalate_splitLines source.toList]
  exact lines_tiles hinner ⟨rfl, rfl, rfl⟩ fun _ => unbroken_of_mem_splitLines

/-! ## What a tiling says -/

/-- The characters that a token was read from. -/
def Covers (t : Token) (i : Nat) : Prop := t.start ≤ i ∧ i < t.start + t.lexeme.length

/-- A token is found in the text where it says. -/
theorem Tiles.found {rest : List Char} (h : Tiles before rest ts) : ∀ t ∈ ts, ∃ front after,
    rest = front ++ t.lexeme.toList ++ after ∧ t.lexeme ≠ "" ∧ t.start = (before ++ front).length ∧
      t.location = placeAfter (before ++ front) ∧ Longest t.kind t.lexeme.toList after := by
  induction h with
  | done => simp
  | @gap _ _ c _ _ _ ih =>
    intro t ht
    obtain ⟨front, after, rfl, hne, hstart, hplace, hlong⟩ := ih t ht
    exact ⟨c :: front, after, rfl, hne, by simpa using hstart, by simpa using hplace, hlong⟩
  | @token before after t _ hne hstart hplace hlong _ ih =>
    intro u hu
    rcases List.mem_cons.mp hu with rfl | hu
    · exact ⟨[], after, by simp, by simpa using hne, by simpa using hstart, by simpa using hplace, hlong⟩
    · obtain ⟨front, after, rfl, hne, hstart, hplace, hlong⟩ := ih u hu
      exact ⟨t.lexeme.toList ++ front, after, by simp, hne, by simpa using hstart, by simpa using hplace, hlong⟩

/-- The tokens follow one another without overlap. -/
theorem Tiles.ordered {rest : List Char} (h : Tiles before rest ts) :
    (∀ t ∈ ts, before.length ≤ t.start) ∧ ts.Pairwise fun t u => t.start + t.lexeme.length ≤ u.start := by
  induction h with
  | done => simp
  | gap _ _ ih =>
    refine ⟨fun t ht => ?_, ih.2⟩
    have := ih.1 t ht
    simp only [List.length_append, List.length_singleton] at this
    omega
  | @token before after t ts _ hstart _ _ _ ih =>
    have hlater : ∀ u ∈ ts, t.start + t.lexeme.length ≤ u.start := fun u hu => by
      simpa [hstart, String.length_toList] using ih.1 u hu
    refine ⟨fun u hu => ?_, List.pairwise_cons.mpr ⟨hlater, ih.2⟩⟩
    rcases List.mem_cons.mp hu with rfl | hu
    · exact Nat.le_of_eq hstart.symm
    · have := hlater u hu
      omega

/-- Every character belongs to a token, or may stand between tokens. -/
theorem Tiles.covered {rest : List Char} (h : Tiles before rest ts) {front after : List Char} {c : Char}
    (hsplit : rest = front ++ c :: after) :
    (∃ t ∈ ts, t.Covers (before ++ front).length) ∨ IsGap (before ++ front) after c := by
  induction h generalizing front with
  | done => simp at hsplit
  | @gap before rest d _ hd _ ih =>
    cases front with
    | nil =>
      obtain ⟨rfl, rfl⟩ := List.cons.inj hsplit
      exact .inr (by simpa using hd)
    | cons e front =>
      obtain ⟨rfl, hrest⟩ := List.cons.inj hsplit
      simpa using ih hrest
  | @token before rest t ts _ hstart _ _ _ ih =>
    by_cases hlt : front.length < t.lexeme.length
    · refine .inl ⟨t, List.mem_cons_self, ?_⟩
      simp only [Covers, hstart, List.length_append]
      omega
    · obtain ⟨more, rfl⟩ : t.lexeme.toList <+: front :=
        List.prefix_of_prefix_length_le ⟨rest, hsplit⟩ (List.prefix_append front (c :: after))
          (by simpa [String.length_toList] using hlt)
      rw [List.append_assoc] at hsplit
      rcases ih (List.append_cancel_left hsplit) with ⟨u, hu, hcovers⟩ | hgap
      · exact .inl ⟨u, List.mem_cons_of_mem _ hu, by simpa using hcovers⟩
      · exact .inr (by simpa using hgap)

/-- What the tokens that stand for text have to do with the text. -/
structure TiledBy (source : List Char) (tokens : List Token) : Prop where
  found : ∀ t ∈ tokens, ∃ before after, source = before ++ t.lexeme.toList ++ after ∧ t.lexeme ≠ "" ∧
    t.start = before.length ∧ t.location = placeAfter before ∧ Longest t.kind t.lexeme.toList after
  ordered : tokens.Pairwise fun t u => t.start + t.lexeme.length ≤ u.start
  covered : ∀ before c after, source = before ++ c :: after →
    (∃ t ∈ tokens, t.Covers before.length) ∨ IsGap before after c

/-- Every token that stands for text is found in the source at its place and goes as far as it can, no two of them
overlap, and every other character is a space, the end of a line, or a tab on a blank line. -/
theorem tokens_tile {source : String} (h : tokenize source = .ok ts) : TiledBy source.toList (ordinary ts) := by
  have htiles := tokenize_tiles h
  exact ⟨htiles.found, htiles.ordered.2, fun _ _ _ => htiles.covered⟩

/-- A text with lines of tabs, an open parenthesis across lines, carriage returns, and tokens that stand side by side. -/
def crampedSource : String :=
  "Str s=\"a\\\\\\\"=='\"\r\n \t\r\nf(x,\n\n\t\n   s)->Num\n    return-1.5===5\r"

theorem crampedSource_tiled : ∃ ts, tokenize crampedSource = .ok ts ∧ (ordinary ts).length = 18 ∧
    TiledBy crampedSource.toList (ordinary ts) := by
  have hlength : ((tokenize crampedSource).toOption.map fun ts => (ordinary ts).length) = some 18 := by decide +kernel
  cases ht : tokenize crampedSource with
  | error e => simp [ht, Except.toOption] at hlength
  | ok ts =>
    rw [ht] at hlength
    exact ⟨ts, rfl, Option.some.inj hlength, tokens_tile ht⟩

end TillLang.Token
