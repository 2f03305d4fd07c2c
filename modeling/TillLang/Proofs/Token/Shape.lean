/-
  TillLang.Proofs.Token.Shape — the shape of a token stream.

  Every statement is a row of tokens that stand for text, with a line end behind it and the change
  of blocks in front of it; behind the last one the blocks left open are closed. As a regular
  expression over the kinds of tokens this is `streamShape`. Line by line the lexer is between two
  statements outside parentheses and inside one otherwise (`Shaped`), which is why a parenthesis left
  open at the end costs the stream one line end and nothing else.

  Proved: the tokens of every text have this shape, and close exactly the blocks they open
  (`tokens_shaped`).
-/

import Mathlib.Computability.RegularExpressions
import TillLang.Proofs.Token.Blocks

namespace TillLang.Token

open RegularExpression (char star)

/-! ## The shape -/

/-- A token that stands for text. -/
def textShape : RegularExpression Kind :=
  char Kind.name + char Kind.number + char Kind.string + char Kind.char + char Kind.bool + char Kind.keyword +
    char Kind.op

/-- A statement up to its line end. -/
def begunShape : RegularExpression Kind := (char .indent + star (char .dedent)) * (textShape * star textShape)

/-- A statement. -/
def statementShape : RegularExpression Kind := begunShape * char .newline

/-- A whole stream. -/
def streamShape : RegularExpression Kind := star statementShape * star (char .dedent) * char .eof

theorem mem_star_nil (P : RegularExpression Kind) : [] ∈ (star P).matches' := Language.nil_mem_kstar _

theorem mem_star_append {P : RegularExpression Kind} {ks ls : List Kind} (hk : ks ∈ (star P).matches')
    (hl : ls ∈ P.matches') : ks ++ ls ∈ (star P).matches' := by
  rw [RegularExpression.matches'_star, Language.mem_kstar] at hk ⊢
  obtain ⟨parts, rfl, hparts⟩ := hk
  refine ⟨parts ++ [ls], by simp, fun part hpart => ?_⟩
  rcases List.mem_append.mp hpart with hpart | hpart
  · exact hparts part hpart
  · rwa [List.mem_singleton.mp hpart]

theorem mem_mul {P Q : RegularExpression Kind} {ks ls : List Kind} (hk : ks ∈ P.matches') (hl : ls ∈ Q.matches') :
    ks ++ ls ∈ (P * Q).matches' := by
  rw [RegularExpression.matches'_mul]
  exact Language.append_mem_mul hk hl

theorem mem_char_iff {j k : Kind} : [k] ∈ (char j).matches' ↔ k = j :=
  Set.mem_singleton_iff.trans List.singleton_inj

theorem mem_char (k : Kind) : [k] ∈ (char k).matches' := rfl

theorem mem_star_replicate (k : Kind) (n : Nat) : List.replicate n k ∈ (star (char k)).matches' := by
  induction n with
  | zero => exact mem_star_nil _
  | succ n ih =>
    rw [List.replicate_succ']
    exact mem_star_append ih (mem_char k)

theorem mem_textShape {k : Kind} (h : k.isOrdinary = true) : [k] ∈ textShape.matches' := by
  simp only [textShape, RegularExpression.matches'_add, Language.mem_add, mem_char_iff]
  cases k <;> simp [Kind.isOrdinary] at h ⊢

theorem mem_star_textShape {ts : List Token} (h : ∀ t ∈ ts, t.kind.isOrdinary = true) :
    ts.map kind ∈ (star textShape).matches' := by
  rw [RegularExpression.matches'_star, Language.mem_kstar]
  refine ⟨ts.map fun t => [t.kind], by rw [← List.flatMap_def, List.map_eq_flatMap], fun part hpart => ?_⟩
  obtain ⟨t, ht, rfl⟩ := List.mem_map.mp hpart
  exact mem_textShape (h t ht)

/-- A statement goes on with more text. -/
theorem mem_begunShape_append {ks : List Kind} {ts : List Token} (hk : ks ∈ begunShape.matches')
    (h : ∀ t ∈ ts, t.kind.isOrdinary = true) : ks ++ ts.map kind ∈ begunShape.matches' := by
  simp only [begunShape, RegularExpression.matches'_mul] at hk ⊢
  obtain ⟨marks, hmarks, _, ⟨first, hfirst, others, hothers, rfl⟩, rfl⟩ := hk
  refine ⟨marks, hmarks, _, ⟨first, hfirst, others ++ ts.map kind, ?_, rfl⟩, by simp⟩
  rw [RegularExpression.matches'_star] at hothers ⊢
  have hmore := mem_star_textShape h
  rw [RegularExpression.matches'_star] at hmore
  exact kstar_mul_kstar (textShape.matches') ▸ Language.append_mem_mul hothers hmore

/-- A statement begins with a change of blocks and some text. -/
theorem mem_begunShape {marks : List Kind} {ts : List Token}
    (hmarks : marks = [.indent] ∨ ∃ n, marks = List.replicate n .dedent) (hne : ts ≠ [])
    (h : ∀ t ∈ ts, t.kind.isOrdinary = true) : marks ++ ts.map kind ∈ begunShape.matches' := by
  obtain ⟨t, ts, rfl⟩ := List.exists_cons_of_ne_nil hne
  obtain ⟨ht, hts⟩ := List.forall_mem_cons.mp h
  have htext : [t.kind] ++ ts.map kind ∈ (textShape * star textShape).matches' :=
    mem_mul (mem_textShape ht) (mem_star_textShape hts)
  refine mem_mul ?_ htext
  rw [RegularExpression.matches'_add, Language.mem_add]
  rcases hmarks with rfl | ⟨n, rfl⟩
  · exact .inl (mem_char _)
  · exact .inr (mem_star_replicate _ n)

/-! ## Line by line -/

/-- The tokens of some lines: whole statements, and inside parentheses one more that has begun. -/
def Shaped (depth : Nat) (ts : List Token) : Prop :=
  if depth = 0 then ts.map kind ∈ (star statementShape).matches'
  else ts.map kind ∈ (star statementShape * begunShape).matches'

theorem Layout.Opens.marks {l : Layout} {number width : Nat} {text : List Char} {front : List Token}
    {indents : List Nat} (h : l.Opens number text width front indents) :
    front.map kind = [.indent] ∨ ∃ n, front.map kind = List.replicate n .dedent := by
  unfold Layout.Opens at h
  split at h
  · rcases reindent_cases h.2 with ⟨-, rfl, -⟩ | ⟨-, -, -, rfl⟩
    · exact .inl rfl
    · exact .inr ⟨_, List.map_replicate⟩
  · exact .inr ⟨0, by simp [h.2.1]⟩

/-- Behind whole statements, a statement that has begun ends or goes on. -/
theorem shaped_of_begun {l : Layout} {number column depth : Nat} {ts us : List Token}
    (h : ts.map kind ∈ (star statementShape).matches') (hus : us.map kind ∈ begunShape.matches') :
    Shaped depth (ts ++ us ++ (if depth = 0 then [l.mark .newline number column] else [])) := by
  unfold Shaped
  split
  · rw [List.append_assoc, List.map_append]
    refine mem_star_append h ?_
    rw [List.map_append]
    exact mem_mul hus (mem_char _)
  · rw [List.append_nil, List.map_append]
    exact mem_mul h hus

theorem line_shaped {l next : Layout} {number : Nat} {raw : List Char} {ts us : List Token}
    (h : l.line number raw = .ok (us, next)) (hts : Shaped l.depth ts) : Shaped next.depth (ts ++ us) := by
  cases hblank : isBlankLine (dropReturn raw) with
  | true =>
    rw [line_of_blank hblank] at h
    cases h
    simpa using hts
  | false =>
    obtain ⟨width, front, indents, body, depth, hopen, hbody, hne, rfl, rfl⟩ := line_of_text h hblank
    have hbody := fun t ht => (scanLine_lexemes hbody t ht).1
    unfold Shaped at hts
    rw [← List.append_assoc]
    split at hts
    · refine shaped_of_begun hts ?_
      rw [List.map_append]
      exact mem_begunShape hopen.marks hne hbody
    · rename_i hd
      -- Inside parentheses nothing stands in front of the text, which goes on with the statement begun before.
      obtain ⟨rfl, rfl⟩ : front = [] ∧ indents = l.indents := by
        unfold Layout.Opens at hopen
        rw [if_neg hd] at hopen
        exact hopen.2
      rw [RegularExpression.matches'_mul] at hts
      obtain ⟨whole, hwhole, begun, hbegun, hsplit⟩ := hts
      obtain ⟨ts₁, ts₂, rfl, rfl, rfl⟩ := List.map_eq_append_iff.mp hsplit.symm
      rw [List.nil_append, List.append_assoc ts₁]
      refine shaped_of_begun hwhole ?_
      rw [List.map_append]
      exact mem_begunShape_append hbegun hbody

theorem lines_shaped {l last : Layout} {number : Nat} {raws : List (List Char)} {ts us : List Token}
    (h : l.lines number raws = .ok (us, last)) (hts : Shaped l.depth ts) : Shaped last.depth (ts ++ us) := by
  induction raws generalizing l number ts us with
  | nil =>
    cases h
    simpa using hts
  | cons raw rest ih =>
    obtain ⟨first, next, others, hfirst, hothers, rfl⟩ := lines_cons_iff.mp h
    rw [← List.append_assoc]
    exact ih hothers (line_shaped hfirst hts)

theorem finish_shaped {l : Layout} {ts : List Token} (h : Shaped l.depth ts) (count : Nat) (raw : List Char) :
    (ts ++ l.finish count raw).map kind ∈ streamShape.matches' := by
  have hwhole : (ts ++ if l.depth = 0 then [] else [l.mark .newline count (raw.length + 1)]).map kind ∈
      (star statementShape).matches' := by
    unfold Shaped at h
    split
    · rename_i hd
      rw [if_pos hd] at h
      simpa using h
    · rename_i hd
      rw [if_neg hd, RegularExpression.matches'_mul] at h
      obtain ⟨whole, hwhole, begun, hbegun, hsplit⟩ := h
      rw [List.map_append, ← hsplit, List.append_assoc]
      exact mem_star_append hwhole (mem_mul hbegun (mem_char _))
  unfold Layout.finish
  rw [← List.append_assoc, ← List.append_assoc, List.map_append, List.map_append]
  refine mem_mul (mem_mul hwhole ?_) (mem_char _)
  rw [List.map_replicate]
  exact mem_star_replicate _ _

/-- The tokens of a text have the shape of a stream. -/
theorem tokenize_streamShape {source : String} {ts : List Token} (h : tokenize source = .ok ts) :
    ts.map kind ∈ streamShape.matches' := by
  obtain ⟨inner, last, hinner, rfl⟩ := tokenize_ok_iff.mp h
  have hstart : Shaped Layout.start.depth [] := mem_star_nil _
  exact finish_shaped (by simpa using lines_shaped hinner hstart) _ _

/-! ## Ends of blocks -/

/-- Where tokens are in order and close only open blocks, the ends of blocks stand behind a line end. -/
theorem newline_before_dedents {ts front rest : List Token} {d : Token} (hordered : ts.IsChain Follows)
    (hopen : ∀ front, front <+: ts → closed front ≤ opened front) (hsplit : ts = front ++ d :: rest)
    (hd : d.kind = .dedent) : ∃ before eol run, front = before ++ eol :: run ∧ eol.kind = .newline ∧
      ∀ t ∈ run, t.kind = .dedent := by
  induction front using List.reverseRecOn generalizing d rest with
  | nil =>
    have := hopen [d] ⟨rest, by simp [hsplit]⟩
    simp [closed, opened, hd] at this
  | append_singleton front x ih =>
    have hfollows : Follows x d := by
      rw [hsplit, List.append_assoc, List.singleton_append] at hordered
      exact (List.isChain_cons_cons.mp hordered.right_of_append).1
    rcases hfollows (.inl hd) with hx | hx
    · exact ⟨front, x, [], rfl, hx, by simp⟩
    · obtain ⟨before, eol, run, rfl, heol, hrun⟩ := ih (by simpa using hsplit) hx
      refine ⟨before, eol, run ++ [x], by simp, heol, fun t ht => ?_⟩
      rcases List.mem_append.mp ht with ht | ht
      · exact hrun t ht
      · rwa [List.mem_singleton.mp ht]

/-- The shape of a token stream as its readers rely on it. -/
structure WellShaped (ts : List Token) : Prop where
  shape : ts.map kind ∈ streamShape.matches'
  /-- No block is closed that is not open. -/
  nested : ∀ front, front <+: ts → closed front ≤ opened front
  balanced : opened ts = closed ts
  ended : ∃ front last, ts = front ++ [last] ∧ last.kind = .eof ∧ ∀ t ∈ front, t.kind ≠ .eof
  /-- No block is empty. -/
  filled : ∀ front t u rest, ts = front ++ t :: u :: rest → t.kind = .indent → u.kind ≠ .dedent
  settled : ∀ front d rest, ts = front ++ d :: rest → d.kind = .dedent →
    ∃ before eol run, front = before ++ eol :: run ∧ eol.kind = .newline ∧ ∀ t ∈ run, t.kind = .dedent

/-- The tokens of every text are statements with the changes of blocks between them. -/
theorem tokens_shaped {source : String} {ts : List Token} (h : tokenize source = .ok ts) : WellShaped ts := by
  have hbalances := tokenize_balances h
  have hstream := tokenize_stream h
  have hnested : ∀ front, front <+: ts → closed front ≤ opened front := by simpa using hbalances.front
  refine ⟨tokenize_streamShape h, hnested, by simpa using hbalances.total, hstream.ended, ?_, ?_⟩
  · rintro front t u rest rfl ht hu
    have hfollows := (List.isChain_cons_cons.mp hstream.ordered.right_of_append).1
    rcases hfollows (.inl hu) with hk | hk <;> simp [ht] at hk
  · exact fun front d rest => newline_before_dedents hstream.ordered hnested

/-- A text that closes two blocks at once, closes a parenthesis it never opened, and ends inside others. -/
def unclosedSource : String :=
  "while x\n  if (x\n\n == y)\n      display f((1,\n2))\n\t \ndisplay y)\n    display (\n\n  z, (\n"

theorem unclosedSource_shaped : ∃ ts, tokenize unclosedSource = .ok ts ∧ closed ts = 3 ∧ WellShaped ts := by
  have hclosed : (tokenize unclosedSource).toOption.map closed = some 3 := by decide +kernel
  cases ht : tokenize unclosedSource with
  | error e => simp [ht, Except.toOption] at hclosed
  | ok ts =>
    rw [ht] at hclosed
    exact ⟨ts, rfl, Option.some.inj hclosed, tokens_shaped ht⟩

end TillLang.Token
