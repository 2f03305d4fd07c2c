/-
  TillLang.Proofs.Progress — the descent ends on every token list that has an end.

  The tokens are any at all, in any order, as long as the last of them is the end of the text and those that stand for
  text were made by the lexer from some text. Most such lists are those of no source text: blocks may end that were not
  begun, and there may be tokens behind the end of the text, ends as well.

  Proved, for every such list:
  - There is one answer, a program or a syntax error at a token, whatever the depth of nesting, besides the one that
    the tokens nest too deep. The tokens behind the first end of the text have no part in it.
  - At every depth the parsers of the descent move on (`Advances`): a statement that returns has taken a token at least,
    and neither a statement nor any part of one gets past the first end of the text. A place does not move on behind
    the last token of all, so this is said with any other tokens behind those of the list.
  - The loops of the descent end by their own conditions (`LoopsEnd`), so the bounds of the repetitions are never met.
  - The statements of a program end at the first end of the text.
-/

import TillLang.Proofs.Parse.Progress

namespace TillLang.Parse

variable {α : Type}

/-! ## What a parser does at a place -/

/-- A parser returns behind at least so many tokens, none of them the end of the text, or blames the token behind some
such tokens, or the tokens nest too deep. -/
inductive Outcome (least : Nat) (c : Cursor) : Except Fault (α × Cursor) → Prop
  | returns {ts : List Token} {c' : Cursor} (a : α) (ht : c.tokens = ts ++ c'.tokens) (hts : Passes least ts) :
      Outcome least c (.ok (a, c'))
  | refuses {ts : List Token} {c' : Cursor} (expected : String) (ht : c.tokens = ts ++ c'.tokens) (hts : Passes 0 ts) :
      Outcome least c (.error (unexpected expected c'.head))
  | nests {fault : Fault} (h : fault.isDepth) : Outcome least c (.error fault)

/-- A parser that moves on by at least so many tokens wherever it starts in front of the end of the text, with any
other tokens behind that. -/
def Moves (least : Nat) (p : Parser α) : Prop :=
  ∀ c c₁ others, Regular c → c₁.tokens = c.tokens ++ others → Outcome least c₁ (p c₁)

section Moves

variable {k : Nat}

theorem Decides.outcome {P : Family α} {c c₁ : Cursor} {d s : Nat} {others : List Token} (h : Decides P (Passes k) c)
    (hc₁ : c₁.tokens = c.tokens ++ others) (hd : c₁.room ≤ d) (hs : c₁.room ≤ s) : Outcome k c₁ (P d s c₁) := by
  have hbehind : ∀ {ts : List Token} {c' : Cursor}, c.tokens = ts ++ c'.tokens →
      c₁.tokens = ts ++ (Cursor.mk c'.head (c'.tail ++ others)).tokens := by
    intro ts c' ht
    rw [hc₁, ht, List.append_assoc]
    rfl
  cases h with
  | takes a ht hts hset =>
    rw [hset d s c₁ _ hd hs (hbehind ht) rfl]
    exact .returns a (hbehind ht) hts
  | blames expected ht hts hset =>
    rw [hset d s c₁ _ hd hs (hbehind ht) rfl]
    exact .refuses expected (hbehind ht) ⟨Nat.zero_le _, fun t ht => hts.endless t (List.mem_append_left _ ht)⟩

/-- A parser does at any depth what it does at one that is enough, or stops at the limit. -/
theorem moves_of_passes {p : Nat → Parser α} (hp : ∀ n, Passing n k fun d _ => p d)
    (hwithin : ∀ d, WithinAll (p d) (p (d + 1))) (depth : Nat) : Moves k (p depth) := by
  intro c c₁ others hc hc₁
  have hdeep := (hp c.room c ⟨hc, Nat.le_refl _⟩).outcome hc₁ (Nat.le_max_right depth c₁.room) (Nat.le_refl _)
  rcases within_of_le hwithin (Nat.le_max_left depth c₁.room) c₁ with ⟨fault, hfault, hdepth⟩ | heq
  · rw [hfault]
    exact .nests hdepth
  · rw [heq]
    exact hdeep

theorem Moves.leaves {p : Parser α} (h : Moves k p) : Leaves k p := by
  intro c a c' hc hreturned
  have houtcome := h c c [] hc (List.append_nil _).symm
  rw [hreturned] at houtcome
  cases houtcome with
  | returns _ ht hts =>
    have hroom := room_of_tokens ht
    have hlen := hts.length_le
    exact ⟨hc.rest ht, by omega⟩

theorem nest_within {p q : Parser Node} (h : WithinAll p q) (k : Nat) : WithinAll (nest p k) (nest q k) := by
  induction k with
  | zero => exact h
  | succ k ih => exact layer_within ih _

theorem statement_moves (depth : Nat) : Moves 1 (statement depth) :=
  moves_of_passes statement_passes statement_within depth

theorem nest_moves (k depth : Nat) : Moves 1 (nest (operand depth) k) :=
  moves_of_passes (fun n => nest_passes (operand_passes n) k) (fun d => nest_within (operand_within d) k) depth

theorem expression_moves (depth : Nat) : Moves 1 (expression depth) := nest_moves layerCount depth

/-- The statements of a program. -/
theorem statementsTo_moves (names : List String) (depth : Nat) :
    Moves 0 fun c => statementsTo names (statement depth) c.room c :=
  moves_of_passes (p := fun depth c => statementsTo names (statement depth) c.room c)
    (fun n c hc => (statementsTo_passes (statement_passes n) names (Nat.le_refl n) c hc).ownRoom)
    (fun d c => statementsTo_within (statement_within d) names c.room c) depth

end Moves

/-! ## Places of a token list -/

/-- The place behind so many tokens. -/
def Cursor.At (c : Cursor) (tokens : List Token) (pos : Nat) : Prop := c.tokens = tokens.drop pos

/-- The index of the first end of the text. -/
def endIndex (tokens : List Token) : Nat := tokens.findIdx fun t => t.kind = .eof

/-- A syntax error at one of the tokens from one index up to another. -/
def Blames (tokens : List Token) (first last : Nat) (fault : Fault) : Prop :=
  ∃ pos t expected, first ≤ pos ∧ pos ≤ last ∧ tokens[pos]? = some t ∧ fault = unexpected expected t

/-- From every place up to the first end of the text, with any others behind the tokens, a parser moves on by at least
so many tokens to return, and not past that end, or blames a token that is not past it either, or the tokens nest too
deep. -/
def Advances (tokens : List Token) (least : Nat) (p : Parser α) : Prop :=
  ∀ others c pos, c.At (tokens ++ others) pos → pos ≤ endIndex tokens →
    match p c with
    | .ok (_, c') => ∃ pos', c'.At (tokens ++ others) pos' ∧ pos + least ≤ pos' ∧ pos' ≤ endIndex tokens
    | .error fault => fault.isDepth ∨ Blames tokens pos (endIndex tokens) fault

/-- Each loop of the descent comes to an end by itself, with the result of the bounded repetition. -/
structure LoopsEnd (depth : Nat) (c : Cursor) : Prop where
  statements : ∀ stops, Loop (fun _ c => !c.sees stops) (gather (statement depth)) [] c
    (statementsTo stops (statement depth) c.room c)
  parameters : Loop (fun s _ => s.2) parameterRound ([], true) c
    ((fun r => ((r.1, false), r.2)) <$> parameters c.room c)
  arguments : Loop (fun _ c => c.sees [","]) (gather fun c => expression depth c.next) [] c
    (moreArguments (expression depth) c.room c)
  operators : ∀ k left, Loop (fun _ c => c.sees (labels (operatorAt k))) (join (nest (operand depth) k)) left c
    (chain (labels (operatorAt k)) (nest (operand depth) k) c.room left c)

theorem loopsEnd {c : Cursor} (hc : Regular c) (depth : Nat) : LoopsEnd depth c where
  statements stops := by
    simpa using statementsTo_loop hc (Nat.le_refl _) (statement_moves depth).leaves stops []
  parameters := by
    simpa using parameters_loop hc (Nat.le_refl _) []
  arguments := by
    simpa using moreArguments_loop hc (Nat.le_refl _) (expression_moves depth).leaves []
  operators k left := chain_loop hc (Nat.le_refl _) (endless_operators k) (nest_moves k depth).leaves left

section Places

variable {k pos : Nat} {tokens ts : List Token} {c c' c₀ : Cursor}

theorem endIndex_lt (h₀ : Regular c₀) : endIndex c₀.tokens < c₀.tokens.length := by
  obtain ⟨last, hlast, heof⟩ := h₀.ends
  exact List.findIdx_lt_length_of_exists ⟨last, List.mem_of_getLast? hlast, by simpa using heof⟩

theorem endIndex_append (h : endIndex tokens < tokens.length) (others : List Token) :
    endIndex (tokens ++ others) = endIndex tokens := by
  rw [endIndex, List.findIdx_append]
  exact if_pos h

theorem endIndex_le {t : Token} (ht : tokens[pos]? = some t) (hk : t.kind = .eof) : endIndex tokens ≤ pos := by
  obtain ⟨hpos, rfl⟩ := List.getElem?_eq_some_iff.mp ht
  by_contra hlt
  have hother := List.not_of_lt_findIdx (Nat.lt_of_not_le hlt)
  simp [hk] at hother

theorem Regular.place (h₀ : Regular c₀) (hc : c.At c₀.tokens pos) : Regular c :=
  h₀.rest (f := c₀.tokens.take pos) (by rw [hc, List.take_append_drop])

theorem Cursor.At.head (hc : c.At tokens pos) : tokens[pos]? = some c.head := by
  have hhead : (tokens.drop pos)[0]? = some c.head := by rw [← hc]; rfl
  simpa using hhead

/-- Behind tokens that are not the end of the text a place is not past the first end. -/
theorem Cursor.At.behind (hc : c.At tokens pos) (hpos : pos ≤ endIndex tokens) (ht : c.tokens = ts ++ c'.tokens)
    (hts : ∀ t ∈ ts, t.kind ≠ .eof) : c'.At tokens (pos + ts.length) ∧ pos + ts.length ≤ endIndex tokens := by
  have hdrop : tokens.drop (pos + ts.length) = c'.tokens := by
    rw [← List.drop_drop, ← hc, ht, List.drop_left]
  refine ⟨hdrop.symm, ?_⟩
  by_contra hpast
  have hlt : endIndex tokens < tokens.length := by
    have hlen := congrArg List.length hdrop
    simp only [List.length_drop, ← Cursor.room_eq, Cursor.room] at hlen
    omega
  -- the first end would be one of the tokens in between
  have hend : tokens[endIndex tokens].kind = .eof :=
    of_decide_eq_true (List.findIdx_getElem (p := fun t : Token => decide (t.kind = .eof)) (w := hlt))
  have hmem : tokens[endIndex tokens] ∈ ts := by
    refine List.mem_of_getElem? (i := endIndex tokens - pos) ?_
    rw [← List.getElem?_append_left (by omega), ← ht, hc, List.getElem?_drop, Nat.add_sub_cancel' hpos,
      List.getElem?_eq_getElem hlt]
  exact hts _ hmem hend

/-- What moves on by tokens moves on by places. -/
theorem Moves.advances {p : Parser α} (h : Moves k p) (h₀ : Regular c₀) : Advances c₀.tokens k p := by
  intro others c pos hc hpos
  have hend := endIndex_lt h₀
  have hpos' : pos ≤ endIndex (c₀.tokens ++ others) := by rwa [endIndex_append hend]
  obtain ⟨c₁, hc₁⟩ : ∃ c₁ : Cursor, c₁.At c₀.tokens pos :=
    ⟨⟨c₀.tokens[pos], c₀.tokens.drop (pos + 1)⟩, (List.drop_eq_getElem_cons (by omega)).symm⟩
  have houtcome := h c₁ c others (h₀.place hc₁) (by rw [hc, hc₁, List.drop_append_of_le_length (by omega)])
  cases hp : p c with
  | ok r =>
    rw [hp] at houtcome
    cases houtcome with
    | returns a ht hts =>
      obtain ⟨hat, hle⟩ := hc.behind hpos' ht hts.endless
      exact ⟨_, hat, Nat.add_le_add_left hts.length_le _, endIndex_append hend others ▸ hle⟩
  | error fault =>
    rw [hp] at houtcome
    cases houtcome with
    | refuses expected ht hts =>
      obtain ⟨hat, hle⟩ := hc.behind hpos' ht hts.endless
      rw [endIndex_append hend] at hle
      have hhead := hat.head
      rw [List.getElem?_append_left (by omega)] at hhead
      exact .inr ⟨_, _, expected, Nat.le_add_right _ _, hle, hhead, rfl⟩
    | nests hdepth => exact .inl hdepth

/-- There is a place in front of the same tokens, up to one that is not past an index, and with any others behind that
index. -/
theorem exists_alike {i : Nat} (others : List Token) (ht : c.tokens = ts ++ c'.tokens) (hi : ts.length ≤ i) :
    ∃ c₁ c₁' : Cursor, c.tokens.take (i + 1) ++ others = c₁.tokens ∧ c₁.tokens = ts ++ c₁'.tokens ∧
      c₁'.head = c'.head := by
  let c₁' : Cursor := ⟨c'.head, c'.tail.take (i - ts.length) ++ others⟩
  obtain ⟨c₁, hc₁⟩ := exists_cursor ts c₁'
  refine ⟨c₁, c₁', ?_, hc₁, rfl⟩
  have htake : c'.tokens.take (i + 1 - ts.length) = c'.head :: c'.tail.take (i - ts.length) := by
    rw [Nat.succ_sub hi]
    rfl
  rw [hc₁, ht, List.take_append, List.take_of_length_le (Nat.le_succ_of_le hi), htake, List.append_assoc]
  rfl

end Places

/-! ## Programs -/

/-- A program, or a syntax error at a token that is not past the first end of the text. -/
def IsVerdict (tokens : List Token) : Except Fault Node → Prop
  | .ok p => ∃ body, p = .program body programPosition
  | .error fault => Blames tokens 0 (endIndex tokens) fault

/-- How the descent goes through a token list at some depth. -/
structure Progress (tokens : List Token) (depth : Nat) : Prop where
  statement : Advances tokens 1 (statement depth)
  block : Advances tokens 1 (block (Parse.statement depth))
  layer : ∀ k, Advances tokens 1 (nest (operand depth) k)
  expression : Advances tokens 1 (expression depth)
  arguments : Advances tokens 0 (arguments (Parse.expression depth))
  parameterList : Advances tokens 0 parameterList
  returnType : Advances tokens 0 returnType
  endOfStatement : Advances tokens 0 endOfStatement
  loops : ∀ c pos, c.At tokens pos → LoopsEnd depth c
  /-- The statements of a program that is returned go from the start to the first end of the text. -/
  finished : ∀ p, programTo depth tokens = .ok p → ∃ start body stop,
    start.At tokens 0 ∧ Loop (fun _ c => !c.sees ["EOF"]) (gather (Parse.statement depth)) [] start (.ok (body, stop)) ∧
      stop.At tokens (endIndex tokens) ∧ p = .program body programPosition

theorem programTo_tokens (depth : Nat) (c : Cursor) : programTo depth c.tokens = (do
    let (body, _) ← statementsTo ["EOF"] (statement depth) c.room c
    return .program body programPosition) := rfl

section Programs

variable {c : Cursor} (hc : Regular c)
include hc

/-- The tokens behind the first end of the text have no part in what the descent answers. -/
theorem programTo_verdict : ∃ verdict, IsVerdict c.tokens verdict ∧ ∀ others depth,
    (c.tokens.take (endIndex c.tokens + 1) ++ others).length ≤ depth →
      programTo depth (c.tokens.take (endIndex c.tokens + 1) ++ others) = verdict := by
  have hstart : c.At c.tokens 0 := rfl
  cases statementsTo_passes (statement_passes c.room) ["EOF"] (Nat.le_refl _) c ⟨hc, Nat.le_refl _⟩ with
  | takes body ht hts hset =>
    obtain ⟨-, hle⟩ := hstart.behind (Nat.zero_le _) ht hts.endless
    refine ⟨.ok (.program body programPosition), ⟨body, rfl⟩, fun others depth hdepth => ?_⟩
    obtain ⟨c₁, c₁', htext, ht₁, hhead⟩ := exists_alike others ht (by simpa using hle)
    rw [htext] at hdepth ⊢
    rw [programTo_tokens, hset depth c₁.room c₁ c₁' hdepth (Nat.le_refl _) ht₁ hhead]
    rfl
  | @blames ts us c' expected ht hts hset =>
    have hendless : ∀ t ∈ ts, t.kind ≠ .eof := fun t ht => hts.endless t (List.mem_append_left us ht)
    obtain ⟨hat, hle⟩ := hstart.behind (Nat.zero_le _) ht hendless
    have hblames : Blames c.tokens 0 (endIndex c.tokens) (unexpected expected c'.head) :=
      ⟨_, _, expected, Nat.zero_le _, hle, hat.head, rfl⟩
    refine ⟨.error (unexpected expected c'.head), hblames, fun others depth hdepth => ?_⟩
    obtain ⟨c₁, c₁', htext, ht₁, hhead⟩ := exists_alike others ht (by simpa using hle)
    rw [htext] at hdepth ⊢
    rw [programTo_tokens, hset depth c₁.room c₁ c₁' hdepth (Nat.le_refl _) ht₁ hhead, ← hhead]
    rfl

/-- A token that answers as the end of the text is an end, since none that stands for text does. -/
theorem programTo_finished (hend : ∀ t ∈ c.tokens, t.answersTo "EOF" = true → t.kind = .eof) {depth : Nat} {p : Node}
    (h : programTo depth c.tokens = .ok p) : ∃ body stop,
      Loop (fun _ c => !c.sees ["EOF"]) (gather (statement depth)) [] c (.ok (body, stop)) ∧
        stop.At c.tokens (endIndex c.tokens) ∧ p = .program body programPosition := by
  rw [programTo_tokens] at h
  obtain ⟨⟨body, stop⟩, hbody, h⟩ := Success.bind_iff.mp h
  have hloop := (loopsEnd hc depth).statements ["EOF"]
  have hplace := (statementsTo_moves ["EOF"] depth).advances hc [] c 0 (by simp [Cursor.At]) (Nat.zero_le _)
  simp only [hbody, List.append_nil] at hloop hplace
  obtain ⟨pos, hat, -, hle⟩ := hplace
  have hstop : stop.sees ["EOF"] = true := by simpa using hloop.stopped
  have hmem : stop.head ∈ c.tokens := List.mem_of_getElem? hat.head
  have hkind : stop.head.kind = .eof := hend _ hmem (by simpa [Cursor.sees] using hstop)
  obtain rfl : pos = endIndex c.tokens := Nat.le_antisymm hle (endIndex_le hat.head hkind)
  exact ⟨body, stop, hloop, hat, (Except.ok.inj h).symm⟩

end Programs

/-- No token that was taken from a text answers as the end of the text. -/
theorem kind_of_answersTo_end {t : Token} (ht : t.kind.isOrdinary = true → t.IsTaken) (h : t.answersTo "EOF" = true) :
    t.kind = .eof := by
  simp only [Token.answersTo, Bool.or_eq_true, Bool.and_eq_true, beq_iff_eq] at h
  rcases h with hlabel | ⟨hkind, hlexeme⟩
  · revert hlabel
    cases t.kind <;> decide
  · obtain ⟨first, rest, text, htaken, htext⟩ := ht (by rcases hkind with hkind | hkind <;> rw [hkind] <;> rfl)
    obtain ⟨x, hx⟩ := (Token.lexemeAt_known htaken).2 0 0 0
    have hnone : Grammar.Terminal.ofText? "EOF" = none := by decide
    rw [← htext, hlexeme] at hx
    rcases hkind with hkind | hkind <;> rw [Grammar.Terminal.ofToken?, hkind] at hx <;> simp [hnone] at hx

theorem progress {c : Cursor} (hc : Regular c) (hend : ∀ t ∈ c.tokens, t.answersTo "EOF" = true → t.kind = .eof)
    (depth : Nat) : Progress c.tokens depth where
  statement := (statement_moves depth).advances hc
  block := (moves_of_passes (fun n => block_passes (statement_passes n)) (fun d => block_within (statement_within d))
    depth).advances hc
  layer k := (nest_moves k depth).advances hc
  expression := (expression_moves depth).advances hc
  arguments := (moves_of_passes (fun n => arguments_passes (expression_passes n))
    (fun d => arguments_within (expression_within d)) depth).advances hc
  parameterList := (moves_of_passes (fun _ => parameterList_passes) (fun _ _ => .same) depth).advances hc
  returnType := (moves_of_passes (fun _ => returnType_passes) (fun _ _ => .same) depth).advances hc
  endOfStatement := (moves_of_passes (fun _ => endOfStatement_passes) (fun _ _ => .same) depth).advances hc
  loops c' pos hc' := loopsEnd (hc.place hc') depth
  finished p hp := ⟨c, by
    obtain ⟨body, stop, hloop, hat, rfl⟩ := programTo_finished hc hend hp
    exact ⟨body, stop, rfl, hloop, hat, rfl⟩⟩

/-- For every token list of which the last token is the end of the text, and of which those that stand for text were
taken from some text, the descent has one verdict, whatever stands behind the first end of the text: from some depth
on it is what the descent answers, and below it may only be that the tokens nest too deep. At every depth the parsers
move on and stay in front of the first end of the text, where a program ends. -/
theorem descent_progresses {tokens : List Token} {last : Token} (hlast : tokens.getLast? = some last)
    (heof : last.kind = .eof) (htaken : ∀ t ∈ tokens, t.kind.isOrdinary = true → t.IsTaken) :
    (∃ verdict, IsVerdict tokens verdict ∧ (∀ depth, tokens.length ≤ depth → programTo depth tokens = verdict) ∧
      (∀ depth, Within (programTo depth tokens) verdict) ∧
      ∀ others depth, (tokens.take (endIndex tokens + 1) ++ others).length ≤ depth →
        programTo depth (tokens.take (endIndex tokens + 1) ++ others) = verdict) ∧
    ∀ depth, Progress tokens depth := by
  obtain ⟨c, rfl⟩ : ∃ c : Cursor, c.tokens = tokens := by
    cases tokens with
    | nil => cases hlast
    | cons t ts => exact ⟨⟨t, ts⟩, rfl⟩
  have hc : Regular c := ⟨⟨last, hlast, heof⟩, fun t ht => Token.readable_of_taken (htaken t ht)⟩
  refine ⟨?_, progress hc fun t ht => kind_of_answersTo_end (htaken t ht)⟩
  obtain ⟨verdict, hverdict, hothers⟩ := programTo_verdict hc
  have hreached : ∀ depth, c.tokens.length ≤ depth → programTo depth c.tokens = verdict := fun depth hdepth => by
    have h := hothers (c.tokens.drop (endIndex c.tokens + 1)) depth
    rw [List.take_append_drop] at h
    exact h hdepth
  refine ⟨verdict, hverdict, hreached, fun depth => ?_, hothers⟩
  rw [← hreached _ (Nat.le_max_right depth c.tokens.length)]
  exact programTo_within (Nat.le_max_left _ _) c.tokens

/-- An assignment without the end of its line, the end of the text, and more behind it. -/
def endedTwice : List Token :=
  [⟨.name, "x", 1, 1, 0⟩, ⟨.op, "=", 1, 3, 2⟩, ⟨.name, "y", 1, 5, 4⟩, ⟨.eof, "", 1, 6, 5⟩, ⟨.keyword, "if", 1, 7, 6⟩,
    ⟨.dedent, "", 1, 9, 8⟩, ⟨.eof, "", 1, 9, 8⟩]

theorem endedTwice_progresses : endIndex endedTwice = 3 ∧ (∀ depth, Progress endedTwice depth) ∧
    ∃ p, programTo 7 endedTwice = .ok p ∧ ∀ depth, Within (programTo depth endedTwice) (.ok p) := by
  have htaken : ∀ t ∈ endedTwice, t.kind.isOrdinary = true → t.IsTaken := by
    intro t ht hk
    simp only [endedTwice, List.mem_cons, List.not_mem_nil, or_false] at ht
    rcases ht with rfl | rfl | rfl | rfl | rfl | rfl | rfl
    · exact ⟨'x', [], ['x'], by decide +kernel, rfl⟩
    · exact ⟨'=', [], ['='], by decide +kernel, rfl⟩
    · exact ⟨'y', [], ['y'], by decide +kernel, rfl⟩
    · cases hk
    · exact ⟨'i', ['f'], ['i', 'f'], by decide +kernel, rfl⟩
    · cases hk
    · cases hk
  have hlast : endedTwice.getLast? = some ⟨.eof, "", 1, 9, 8⟩ := rfl
  obtain ⟨⟨verdict, -, hreached, hwithin, -⟩, hprogress⟩ := descent_progresses hlast rfl htaken
  have hok : (programTo 7 endedTwice).isOk = true := by decide +kernel
  rw [hreached 7 (by decide)] at hok
  cases verdict with
  | error fault => cases hok
  | ok p => exact ⟨by decide, hprogress, p, hreached 7 (by decide), hwithin⟩

end TillLang.Parse
