/-
  TillLang.Proofs.Token.Stream — the shape of a token stream.

  The tokens of a source text are not an arbitrary list: the grammar knows every one of
  them, the end-of-text token stands at the end and nowhere else, and a block or the text
  only ends behind a line end or the end of another block. Line by line the last fact
  needs an invariant: outside parentheses the last token ended a statement.

  Proved: the tokens of every source text are a stream (`tokenize_stream`), and what is
  left of a stream after some of its tokens is one again (`Stream.rest`).
-/

import Mathlib.Data.List.Chain
import TillLang.Grammar.Symbol
import TillLang.Proofs.Success
import TillLang.Token.Layout

namespace TillLang.Token

open Grammar (Terminal)

/-- Tokens behind which a block or the text can end. -/
def endsStatement (t : Token) : Prop := t.kind = .newline ∨ t.kind = .dedent

/-- A block or the text only ends behind the end of a statement. -/
def Follows (before after : Token) : Prop := after.kind = .dedent ∨ after.kind = .eof → before.endsStatement

/-- The shape of a token stream. -/
structure Stream (ts : List Token) : Prop where
  known : ∀ t ∈ ts, ∃ x, Terminal.ofToken? t = some x
  ended : ∃ front last, ts = front ++ [last] ∧ last.kind = .eof ∧ ∀ t ∈ front, t.kind ≠ .eof
  ordered : ts.IsChain Follows

/-- What is left after some tokens of a stream is a stream, unless nothing is left. -/
theorem Stream.rest {front rest : List Token} (h : Stream (front ++ rest)) (hne : rest ≠ []) : Stream rest where
  known t ht := h.known t (List.mem_append_right _ ht)
  ended := by
    obtain ⟨all, last, hall, hlast, hfront⟩ := h.ended
    obtain ⟨others, last', rfl⟩ := List.eq_nil_or_concat rest |>.resolve_left hne
    rw [List.concat_eq_append, ← List.append_assoc] at hall
    obtain ⟨rfl, hl⟩ := List.append_inj' hall rfl
    obtain rfl : last' = last := by simpa using hl
    exact ⟨others, last', by simp, hlast, fun t ht => hfront t (List.mem_append_right _ ht)⟩
  ordered := h.ordered.right_of_append

/-- Behind a token that is not the end of the text, the stream goes on. -/
theorem Stream.tail_ne_nil {t : Token} {rest : List Token} (h : Stream (t :: rest)) (ht : t.kind ≠ .eof) :
    rest ≠ [] := by
  rintro rfl
  obtain ⟨front, last, hall, hlast, -⟩ := h.ended
  obtain ⟨rfl, hl⟩ := List.append_inj' (show [] ++ [t] = front ++ [last] from hall) rfl
  obtain rfl : t = last := by simpa using hl
  exact ht hlast

/-! ## The tokens of a line -/

theorem wordKind_known (word : String) (line column start : Nat) :
    ∃ x, Terminal.ofToken? ⟨wordKind word, word, line, column, start⟩ = some x := by
  unfold wordKind
  split
  · rename_i h
    have hm : word ∈ keywords := by simpa using h
    simp only [keywords, List.mem_cons, List.not_mem_nil, or_false] at hm
    rcases hm with rfl | rfl | rfl | rfl <;> exact ⟨_, rfl⟩
  · split <;> exact ⟨_, rfl⟩

theorem opText_known {cs text : List Char} (h : opText? cs = some text) :
    ∃ x, Terminal.ofText? (String.ofList text) = some x := by
  unfold opText? at h
  split at h
  · obtain rfl := Option.some.inj h
    exact ⟨.eqOp, by decide⟩
  · obtain rfl := Option.some.inj h
    exact ⟨.arrow, by decide⟩
  · rename_i c _ _ _
    split at h
    · rename_i hc
      obtain rfl := Option.some.inj h
      have hm : c ∈ ['<', '>', '+', '-', '*', '/', '!', '~', '=', '(', ')', ','] := by
        simpa only [isSingleOp, List.contains_iff_mem] using hc
      have hall : (['<', '>', '+', '-', '*', '/', '!', '~', '=', '(', ')', ','].all fun c =>
          (Terminal.ofText? (String.ofList [c])).isSome) = true := by decide
      exact Option.isSome_iff_exists.mp (List.all_eq_true.mp hall c hm)
    · cases h
  · cases h

/-- The kind of a lexeme stands for text of the source, and the grammar knows the token. -/
theorem lexemeAt_known {c : Char} {rest text : List Char} {kind : Kind} (h : lexemeAt c rest = .ok (kind, text)) :
    kind.isOrdinary = true ∧
      ∀ line column start, ∃ x, Terminal.ofToken? ⟨kind, String.ofList text, line, column, start⟩ = some x := by
  unfold lexemeAt at h
  split at h
  · cases h
  split at h
  · simp only [Except.ok.injEq, Prod.mk.injEq] at h
    obtain ⟨rfl, rfl⟩ := h
    refine ⟨?_, wordKind_known _⟩
    unfold wordKind
    split
    · rfl
    · split <;> rfl
  split at h
  · simp only [Except.ok.injEq, Prod.mk.injEq] at h
    obtain ⟨rfl, rfl⟩ := h
    exact ⟨rfl, fun _ _ _ => ⟨_, rfl⟩⟩
  split at h
  · obtain ⟨_, -, h⟩ := Success.map_iff.mp h
    obtain ⟨rfl, rfl⟩ := Prod.mk.inj h
    exact ⟨rfl, fun _ _ _ => ⟨_, rfl⟩⟩
  split at h
  · obtain ⟨_, -, h⟩ := Success.map_iff.mp h
    obtain ⟨rfl, rfl⟩ := Prod.mk.inj h
    exact ⟨rfl, fun _ _ _ => ⟨_, rfl⟩⟩
  split at h
  · rename_i hop
    simp only [Except.ok.injEq, Prod.mk.injEq] at h
    obtain ⟨rfl, rfl⟩ := h
    exact ⟨rfl, fun _ _ _ => opText_known hop⟩
  · cases h

/-- A token that stands for text of the source and is known to the grammar. -/
def IsLexeme (t : Token) : Prop := t.kind.isOrdinary = true ∧ ∃ x, Terminal.ofToken? t = some x

theorem scanLine_lexemes {line offset column depth depth' : Nat} {cs : List Char} {ts : List Token}
    (h : scanLine line offset cs column depth = .ok (ts, depth')) : ∀ t ∈ ts, IsLexeme t := by
  fun_induction scanLine line offset cs column depth generalizing ts with
  | case1 => simp_all
  | case2 _ _ _ ih => exact ih h
  | case3 => cases h
  | case4 =>
    rename_i hk _ ih
    obtain ⟨⟨ts', d⟩, hts, h⟩ := Success.map_iff.mp h
    simp only [Prod.mk.injEq] at h
    obtain ⟨rfl, rfl⟩ := h
    intro t ht
    rcases List.mem_cons.mp ht with rfl | ht
    · exact ⟨(lexemeAt_known hk).1, (lexemeAt_known hk).2 _ _ _⟩
    · exact ih hts t ht

/-! ## The tokens of the lines -/

/-- Tokens that stand between the start and the end of a text. -/
def IsInner (t : Token) : Prop := t.kind ≠ .eof ∧ ∃ x, Terminal.ofToken? t = some x

/-- From a token on that ended a statement, if it had to: the tokens go on in order, and outside
parentheses the last of them ends a statement. -/
structure GoesOn (before : Token) (ts : List Token) (depth : Nat) : Prop where
  inner : ∀ t ∈ ts, IsInner t
  ordered : (before :: ts).IsChain Follows
  fresh : depth = 0 → ∀ t ∈ (before :: ts).getLast?, t.endsStatement

theorem IsLexeme.isInner {t : Token} (h : IsLexeme t) : IsInner t := by
  refine ⟨fun hk => ?_, h.2⟩
  have := h.1
  rw [hk] at this
  cases this

theorem IsLexeme.follows {t : Token} (h : IsLexeme t) (before : Token) : Follows before t := by
  rintro (hk | hk) <;>
  · have := h.1
    rw [hk] at this
    cases this

theorem isInner_mark (l : Layout) {kind : Kind} (line column : Nat)
    (h : kind = .newline ∨ kind = .indent ∨ kind = .dedent) : IsInner (l.mark kind line column) := by
  rcases h with rfl | rfl | rfl <;> exact ⟨by simp [Layout.mark], _, rfl⟩

theorem isChain_of_lexemes {ts : List Token} (h : ∀ t ∈ ts, IsLexeme t) : ts.IsChain Follows := by
  induction ts with
  | nil => exact .nil
  | cons t ts ih =>
    refine List.isChain_cons.mpr ⟨fun y hy => ?_, ih fun t ht => h t (List.mem_cons_of_mem _ ht)⟩
    exact (h y (List.mem_cons_of_mem _ (List.mem_of_mem_head? hy))).follows t

/-- The ends of blocks follow the end of a statement and one another. -/
theorem isChain_dedents {before d : Token} (hb : before.endsStatement) (hd : d.kind = .dedent) (n : Nat) :
    (before :: List.replicate n d).IsChain Follows := by
  induction n generalizing before with
  | zero => exact .singleton _
  | succ n ih => exact List.isChain_cons_cons.mpr ⟨fun _ => hb, ih (Or.inr hd)⟩

/-- What stands in front of a line: its indentation outside parentheses, and nothing inside. -/
theorem reindent_ordered {l : Layout} {line width : Nat} {ts : List Token} {indents : List Nat}
    (h : l.reindent line width = .ok (ts, indents)) {before : Token} (hb : before.endsStatement) :
    (∀ t ∈ ts, IsInner t) ∧ (before :: ts).IsChain Follows := by
  unfold Layout.reindent at h
  split at h
  · simp only [Except.ok.injEq, Prod.mk.injEq] at h
    obtain ⟨rfl, -⟩ := h
    refine ⟨by simpa using isInner_mark l line (width + 1) (by simp), ?_⟩
    refine List.isChain_pair.mpr ?_
    rintro (hk | hk) <;> cases hk
  · simp only at h
    split at h
    · simp only [Except.ok.injEq, Prod.mk.injEq] at h
      obtain ⟨rfl, -⟩ := h
      refine ⟨fun t ht => ?_, isChain_dedents hb rfl _⟩
      rw [(List.mem_replicate.mp ht).2]
      exact isInner_mark l line (width + 1) (by simp)
    · cases h

theorem goesOn_nil {before : Token} {depth : Nat} (h : depth = 0 → before.endsStatement) :
    GoesOn before [] depth where
  inner := by simp
  ordered := .singleton _
  fresh hd := by simpa using h hd

theorem GoesOn.append {before : Token} {ts us : List Token} {d e : Nat} (h : GoesOn before ts d)
    (hu : ∀ last ∈ (before :: ts).getLast?, GoesOn last us e) : GoesOn before (ts ++ us) e := by
  obtain ⟨front, last, hlast⟩ : ∃ front last, before :: ts = front ++ [last] := by
    rcases List.eq_nil_or_concat (before :: ts) with hn | ⟨front, last, hn⟩
    · cases hn
    · exact ⟨front, last, by simpa using hn⟩
  have hg := hu last (by simp [hlast])
  have heq : before :: (ts ++ us) = front ++ (last :: us) := by
    rw [← List.cons_append, hlast, List.append_assoc, List.singleton_append]
  refine ⟨fun t ht => ?_, ?_, fun he => ?_⟩
  · rcases List.mem_append.mp ht with ht | ht
    · exact h.inner t ht
    · exact hg.inner t ht
  · have h1 := h.ordered
    rw [hlast] at h1
    rw [heq, ← List.singleton_append, ← List.append_assoc]
    exact h1.append_overlap hg.ordered (by simp)
  · rw [heq, List.getLast?_append_of_ne_nil _ (by simp)]
    exact hg.fresh he

/-- What stands in front of the text of a line: outside parentheses it is indented, inside it is not. -/
def Layout.Opens (l : Layout) (number : Nat) (text : List Char) (width : Nat) (front : List Token)
    (indents : List Nat) : Prop :=
  if l.depth = 0 then indentation number text = .ok width ∧ l.reindent number width = .ok (front, indents)
  else width = 0 ∧ front = [] ∧ indents = l.indents

/-- A line is blank, or it is opened, scanned and ended. -/
theorem line_cases {l next : Layout} {number : Nat} {raw : List Char} {ts : List Token}
    (h : l.line number raw = .ok (ts, next)) :
    isBlankLine (dropReturn raw) = true ∧ ts = [] ∧ next = { l with offset := l.offset + raw.length + 1 } ∨
    ∃ width front indents body depth, l.Opens number (dropReturn raw) width front indents ∧
      scanLine number l.offset ((dropReturn raw).drop width) (width + 1) l.depth = .ok (body, depth) ∧
      ts = front ++ body ++ (if depth = 0 then [l.mark .newline number ((dropReturn raw).length + 1)] else []) ∧
      next = ⟨indents, depth, l.offset + raw.length + 1⟩ := by
  unfold Layout.line at h
  simp only at h
  split at h
  · rename_i hb
    simp only [Except.ok.injEq, Prod.mk.injEq] at h
    exact Or.inl ⟨hb, h.1.symm, h.2.symm⟩
  · right
    split at h
    · rename_i hd
      obtain ⟨width, hw, h⟩ := Success.bind_iff.mp h
      obtain ⟨⟨front, indents⟩, hfront, h⟩ := Success.bind_iff.mp h
      obtain ⟨⟨body, depth⟩, hbody, h⟩ := Success.bind_iff.mp h
      simp only [Success.pure_eq, Except.ok.injEq, Prod.mk.injEq] at h
      exact ⟨width, front, indents, body, depth, by simp [Layout.Opens, hd, hw, hfront], hbody, h.1.symm, h.2.symm⟩
    · rename_i hd
      simp only [Success.pure_eq, Success.ok_bind] at h
      obtain ⟨⟨body, depth⟩, hbody, h⟩ := Success.bind_iff.mp h
      simp only [Except.ok.injEq, Prod.mk.injEq] at h
      exact ⟨0, [], l.indents, body, depth, by simp [Layout.Opens, hd], hbody, by simpa using h.1.symm, h.2.symm⟩

/-- A line that is not blank, and can be opened and scanned, has its tokens. -/
theorem line_of_opens {l : Layout} {number width depth : Nat} {raw : List Char} {front body : List Token}
    {indents : List Nat} (htext : isBlankLine (dropReturn raw) = false)
    (hopen : l.Opens number (dropReturn raw) width front indents)
    (hbody : scanLine number l.offset ((dropReturn raw).drop width) (width + 1) l.depth = .ok (body, depth)) :
    l.line number raw =
      .ok (front ++ body ++ (if depth = 0 then [l.mark .newline number ((dropReturn raw).length + 1)] else []),
        ⟨indents, depth, l.offset + raw.length + 1⟩) := by
  unfold Layout.line
  unfold Layout.Opens at hopen
  split at hopen
  · rename_i hdepth
    rw [hdepth] at hbody
    simp only [htext, hdepth, hopen.1, hopen.2, hbody, Bool.false_eq_true, if_false, if_true, Success.ok_bind,
      Success.pure_eq]
  · rename_i hdepth
    obtain ⟨rfl, rfl, rfl⟩ := hopen
    simp only [htext, hdepth, hbody, Bool.false_eq_true, if_false, Success.ok_bind, Success.pure_eq]

theorem line_goesOn {l next : Layout} {number : Nat} {raw : List Char} {ts : List Token}
    (h : l.line number raw = .ok (ts, next)) {before : Token} (hb : l.depth = 0 → before.endsStatement) :
    GoesOn before ts next.depth := by
  rcases line_cases h with ⟨-, rfl, rfl⟩ | ⟨width, front, indents, body, depth, hopen, hbody, rfl, rfl⟩
  · exact goesOn_nil hb
  · have hlex := scanLine_lexemes hbody
    have h1 : (∀ t ∈ front, IsInner t) ∧ (before :: front).IsChain Follows := by
      unfold Layout.Opens at hopen
      split at hopen
      · rename_i hd
        exact reindent_ordered hopen.2 (hb hd)
      · obtain ⟨-, rfl, -⟩ := hopen
        exact ⟨by simp, .singleton _⟩
    -- The depth of the parts in front of the line end is set to one: only the end makes it fresh.
    have hfrontBody : GoesOn before (front ++ body) 1 := by
      refine GoesOn.append (d := 1) ⟨h1.1, h1.2, by simp⟩ fun last _ => ⟨fun t ht => (hlex t ht).isInner, ?_, by simp⟩
      refine List.isChain_cons.mpr ⟨fun y hy => ?_, isChain_of_lexemes hlex⟩
      exact (hlex y (List.mem_of_mem_head? hy)).follows last
    refine hfrontBody.append fun last _ => ?_
    split
    · refine ⟨by simpa using isInner_mark l number _ (by simp), List.isChain_pair.mpr ?_, fun _ => ?_⟩
      · rintro (hk | hk) <;> cases hk
      · simp [endsStatement, Layout.mark]
    · rename_i hd
      exact ⟨by simp, .singleton _, fun he => absurd he hd⟩

/-- The tokens of a line come in front of those of the lines after it. -/
theorem lines_cons_iff {l last : Layout} {number : Nat} {raw : List Char} {rest : List (List Char)} {ts : List Token} :
    l.lines number (raw :: rest) = .ok (ts, last) ↔ ∃ first next others, l.line number raw = .ok (first, next) ∧
      next.lines (number + 1) rest = .ok (others, last) ∧ ts = first ++ others := by
  simp only [Layout.lines, Success.bind_iff, Success.pure_eq, Except.ok.injEq, Prod.mk.injEq]
  constructor
  · rintro ⟨⟨first, next⟩, hfirst, ⟨others, _⟩, hothers, rfl, rfl⟩
    exact ⟨first, next, others, hfirst, hothers, rfl⟩
  · rintro ⟨first, next, others, hfirst, hothers, rfl⟩
    exact ⟨(first, next), hfirst, (others, last), hothers, rfl, rfl⟩

theorem lines_goesOn {l last : Layout} {number : Nat} {raws : List (List Char)} {ts : List Token}
    (h : l.lines number raws = .ok (ts, last)) {before : Token} (hb : l.depth = 0 → before.endsStatement) :
    GoesOn before ts last.depth := by
  induction raws generalizing l number ts before with
  | nil =>
    simp only [Layout.lines, Except.ok.injEq, Prod.mk.injEq] at h
    obtain ⟨rfl, rfl⟩ := h
    exact goesOn_nil hb
  | cons raw rest ih =>
    obtain ⟨first, next, others, hfirst, hothers, rfl⟩ := lines_cons_iff.mp h
    have h1 := line_goesOn hfirst hb
    exact h1.append fun t ht => ih hothers fun hd => h1.fresh hd t ht

theorem finish_goesOn (l : Layout) (count : Nat) (raw : List Char) {before : Token}
    (hb : l.depth = 0 → before.endsStatement) :
    ∃ front last, l.finish count raw = front ++ [last] ∧ last.kind = .eof ∧ GoesOn before front 0 := by
  refine ⟨_, _, rfl, rfl, ?_⟩
  have hmarks : ∀ d : Token, d.endsStatement →
      GoesOn d (List.replicate l.indents.length (l.mark .dedent count (raw.length + 1))) 0 := by
    intro d hd
    refine ⟨fun t ht => ?_, isChain_dedents hd rfl _, fun _ t ht => ?_⟩
    · rw [(List.mem_replicate.mp ht).2]
      exact isInner_mark l count _ (by simp)
    · rcases List.mem_cons.mp (List.mem_of_getLast? ht) with rfl | ht
      · exact hd
      · rw [(List.mem_replicate.mp ht).2]
        exact Or.inr rfl
  split
  · rename_i hd
    exact hmarks before (hb hd)
  · have hline : GoesOn before [l.mark .newline count (raw.length + 1)] 0 := by
      refine ⟨by simpa using isInner_mark l count _ (by simp), List.isChain_pair.mpr ?_, fun _ => ?_⟩
      · rintro (hk | hk) <;> cases hk
      · simp [endsStatement, Layout.mark]
    exact hline.append fun t ht => hmarks t (hline.fresh rfl t ht)

/-! ## Streams -/

/-- The tokens of a text are those of its lines and those at its end. -/
theorem tokenize_ok_iff {source : String} {ts : List Token} :
    tokenize source = .ok ts ↔ ∃ inner last, Layout.start.lines 1 (splitLines source.toList) = .ok (inner, last) ∧
      ts = inner ++ last.finish (splitLines source.toList).length ((splitLines source.toList).getLastD []) := by
  simp only [tokenize, tokenizeChars, Success.bind_iff, Success.pure_eq, Except.ok.injEq]
  constructor
  · rintro ⟨⟨inner, last⟩, hinner, rfl⟩
    exact ⟨inner, last, hinner, rfl⟩
  · rintro ⟨inner, last, hinner, rfl⟩
    exact ⟨(inner, last), hinner, rfl⟩

theorem tokenize_stream {source : String} {ts : List Token} (h : tokenize source = .ok ts) : Stream ts := by
  obtain ⟨inner, last, hinner, rfl⟩ := tokenize_ok_iff.mp h
  -- In front of the first token one may think of a line end.
  have hstart : (⟨.newline, "", 0, 0, 0⟩ : Token).endsStatement := Or.inl rfl
  have h1 := lines_goesOn hinner (fun _ => hstart)
  obtain ⟨lastOne, hlast⟩ : ∃ t, ((⟨.newline, "", 0, 0, 0⟩ : Token) :: inner).getLast? = some t :=
    ⟨_, List.getLast?_eq_some_getLast (by simp)⟩
  obtain ⟨front, e, hfinish, he, h2⟩ := finish_goesOn last (splitLines source.toList).length
    ((splitLines source.toList).getLastD []) (h1.fresh · lastOne hlast)
  have hall : GoesOn ⟨.newline, "", 0, 0, 0⟩ (inner ++ front) 0 := by
    refine h1.append fun t ht => ?_
    obtain rfl : lastOne = t := by simpa [hlast] using ht
    exact h2
  rw [hfinish, ← List.append_assoc]
  refine ⟨fun t ht => ?_, ⟨_, _, rfl, he, fun t ht => (hall.inner t ht).1⟩, ?_⟩
  · rcases List.mem_append.mp ht with ht | ht
    · exact (hall.inner t ht).2
    · rw [List.mem_singleton.mp ht]
      exact ⟨.finish, by simp [Terminal.ofToken?, he]⟩
  · have hends := hall.fresh rfl
    have : (⟨.newline, "", 0, 0, 0⟩ :: ((inner ++ front) ++ [e])).IsChain Follows := by
      rw [← List.cons_append]
      refine hall.ordered.append (.singleton _) fun x hx y hy => ?_
      exact fun _ => hends x hx
    exact this.tail

end TillLang.Token
