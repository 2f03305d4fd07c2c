/-
  TillLang.Proofs.Token.Written — pieces of a line and the tokens they are scanned as.

  A line is written piece by piece. `Writes` says of a piece what tokens it is scanned as,
  whatever follows it, as long as that does not go on with the last word or number of the piece.
  Pieces are put together by `Writes.append` and `Writes.parens`; a piece leaves the number of
  open parentheses as it was. Below are the pieces of which lines are made: words, numbers,
  quoted texts and operators.
-/

import TillLang.Parse.Fault
import TillLang.Proofs.Decimal.Double
import TillLang.Proofs.Parse.Spelling
import TillLang.Proofs.Token.Readable

namespace TillLang.Token

/-- A text without a line break in it and without a carriage return at its end. -/
def Neat (text : List Char) : Prop := '\n' ∉ text ∧ text.getLast? ≠ some '\r'

/-- A text does not go on with a word or a number. -/
def Bounded (rest : List Char) : Prop := ∀ c ∈ rest.head?, isWordChar c = false ∧ c ≠ '.'

/-- Any text. -/
def Anything (_ : List Char) : Prop := True

/-- A neat piece of a line, which is scanned as tokens with a property if what follows it has another. -/
structure Writes (follow : List Char → Prop) (text : List Char) (P : List Token → Prop) : Prop where
  neat : Neat text
  scans : ∀ rest, follow rest → ∀ line offset column depth, ∃ ts column', P ts ∧
    scanLine line offset (text ++ rest) column depth =
      (fun r => (ts ++ r.1, r.2)) <$> scanLine line offset rest column' depth

/-- One token of a kind, with its text. -/
def One (kind : Kind) (text : List Char) (ts : List Token) : Prop :=
  ∃ t : Token, ts = [t] ∧ t.kind = kind ∧ t.lexeme = String.ofList text

variable {follow follow' : List Char → Prop} {text more : List Char} {P Q : List Token → Prop}

/-! ## Putting pieces together -/

theorem Neat.append (h : Neat text) (h' : Neat more) : Neat (text ++ more) := by
  refine ⟨by simp [h.1, h'.1], ?_⟩
  rw [List.getLast?_append]
  cases hl : more.getLast? with
  | none => simpa using h.2
  | some c => simpa [hl] using h'.2

theorem Writes.imp (h : Writes follow text P) (hP : ∀ ts, P ts → Q ts) : Writes follow text Q := by
  refine ⟨h.neat, fun rest hrest line offset column depth => ?_⟩
  obtain ⟨ts, column', hts, hscan⟩ := h.scans rest hrest line offset column depth
  exact ⟨ts, column', hP ts hts, hscan⟩

/-- What may be followed by anything may be followed by some texts only. -/
theorem Writes.anywhere (h : Writes Anything text P) : Writes follow text P :=
  ⟨h.neat, fun rest _ => h.scans rest trivial⟩

/-- Tokens with one property and then tokens with another. -/
def Then (P Q : List Token → Prop) (ts : List Token) : Prop := ∃ us vs, ts = us ++ vs ∧ P us ∧ Q vs

theorem Writes.append (h : Writes follow text P) (h' : Writes follow' more Q)
    (hfollow : ∀ rest, follow' rest → follow (more ++ rest)) : Writes follow' (text ++ more) (Then P Q) := by
  refine ⟨h.neat.append h'.neat, fun rest hrest line offset column depth => ?_⟩
  obtain ⟨ts, column₁, hts, hscan⟩ := h.scans (more ++ rest) (hfollow rest hrest) line offset column depth
  obtain ⟨us, column₂, hus, hscan'⟩ := h'.scans rest hrest line offset column₁ depth
  refine ⟨ts ++ us, column₂, ⟨ts, us, rfl, hts, hus⟩, ?_⟩
  rw [List.append_assoc, hscan, hscan']
  cases scanLine line offset rest column₂ depth <;> simp

/-- A token in front of a text. -/
theorem scanLine_lexeme {c : Char} {body rest : List Char} {kind : Kind} (hc : c ≠ ' ')
    (h : lexemeAt c (body ++ rest) = .ok (kind, c :: body)) (line offset column depth : Nat) :
    scanLine line offset (c :: body ++ rest) column depth =
      (fun r => (⟨kind, String.ofList (c :: body), line, column, offset + column - 1⟩ :: r.1, r.2)) <$>
        scanLine line offset rest (column + (c :: body).length) (depthAfter depth kind (c :: body)) := by
  rw [List.cons_append, scanLine, if_neg hc, h]
  simp only [List.length_cons, Nat.add_sub_cancel, List.drop_left']

theorem depthAfter_eq {kind : Kind} {text : List Char} (h : kind = .op → text ≠ ['('] ∧ text ≠ [')']) (depth : Nat) :
    depthAfter depth kind text = depth := by
  unfold depthAfter
  by_cases hk : kind = .op
  · simp [h hk]
  · simp [hk]

/-- A token as a piece. -/
theorem writes_token {c : Char} {body : List Char} {kind : Kind} (hc : c ≠ ' ') (hneat : Neat (c :: body))
    (hparen : kind = .op → c :: body ≠ ['('] ∧ c :: body ≠ [')'])
    (h : ∀ rest, follow rest → lexemeAt c (body ++ rest) = .ok (kind, c :: body)) :
    Writes follow (c :: body) (One kind (c :: body)) := by
  refine ⟨hneat, fun rest hrest line offset column depth => ?_⟩
  refine ⟨[⟨kind, String.ofList (c :: body), line, column, offset + column - 1⟩], column + (c :: body).length,
    ⟨_, rfl, rfl, rfl⟩, ?_⟩
  rw [scanLine_lexeme hc (h rest hrest), depthAfter_eq hparen]
  rfl

theorem writes_nil : Writes Anything [] (· = []) := by
  refine ⟨by unfold Neat; decide, fun rest _ line offset column depth => ⟨[], column, rfl, ?_⟩⟩
  rw [List.nil_append]
  cases scanLine line offset rest column depth <;> rfl

theorem writes_space : Writes Anything [' '] (· = []) := by
  refine ⟨by unfold Neat; decide, fun rest _ line offset column depth => ⟨[], column + 1, rfl, ?_⟩⟩
  rw [List.singleton_append, scanLine, if_pos rfl]
  cases scanLine line offset rest (column + 1) depth <;> rfl

/-- A piece with a space behind it. -/
theorem Writes.space (h : Writes follow text P) (hfollow : ∀ rest, follow (' ' :: rest)) :
    Writes Anything (text ++ [' ']) P := by
  refine (h.append writes_space fun rest _ => hfollow rest).imp ?_
  rintro _ ⟨ts, _, rfl, hts, rfl⟩
  rwa [List.append_nil]

/-- A piece with a space in front of it. -/
theorem Writes.spaceBefore (h : Writes follow text P) : Writes follow (' ' :: text) P := by
  refine (writes_space.append h fun _ _ => trivial).imp ?_
  rintro _ ⟨_, us, rfl, rfl, hus⟩
  exact hus

theorem bounded_of_head {c : Char} {rest : List Char} (h : isWordChar c = false ∧ c ≠ '.') : Bounded (c :: rest) := by
  simpa [Bounded] using h

theorem stands_op {t : Token} (hk : t.kind = .op) {x : Grammar.Terminal}
    (h : Grammar.Terminal.ofText? t.lexeme = some x) :
    t.Stands x := by
  simp [Stands, Grammar.Terminal.ofToken?, hk, h]

/-- Tokens with a property, between parentheses. -/
def Between (P : List Token → Prop) (ts : List Token) : Prop :=
  ∃ lp us rp, ts = lp :: (us ++ [rp]) ∧ lp.Stands .lpar ∧ P us ∧ rp.Stands .rpar

/-- A piece in parentheses. -/
theorem Writes.parens (h : Writes Bounded text P) : Writes Anything ('(' :: (text ++ [')'])) (Between P) := by
  have hneat : Neat ('(' :: (text ++ [')'])) := by
    refine ⟨by simp [h.neat.1], ?_⟩
    rw [← List.cons_append, List.getLast?_concat]
    decide
  refine ⟨hneat, fun rest _ line offset column depth => ?_⟩
  have hbound : Bounded (')' :: rest) := bounded_of_head (by decide)
  obtain ⟨ts, column', hts, hscan⟩ := h.scans (')' :: rest) hbound line offset (column + 1) (depth + 1)
  refine ⟨_, column' + 1, ⟨⟨.op, "(", line, column, offset + column - 1⟩, ts,
    ⟨.op, ")", line, column', offset + column' - 1⟩, rfl, stands_op rfl rfl, hts, stands_op rfl rfl⟩, ?_⟩
  have hopen : scanLine line offset ('(' :: (text ++ ')' :: rest)) column depth =
      (fun r => (⟨.op, "(", line, column, offset + column - 1⟩ :: r.1, r.2)) <$>
        scanLine line offset (text ++ ')' :: rest) (column + 1) (depth + 1) :=
    scanLine_lexeme (c := '(') (by decide)
      (show lexemeAt '(' ([] ++ (text ++ ')' :: rest)) = .ok (.op, ['(']) from rfl) _ _ _ _
  have hclose : scanLine line offset (')' :: rest) column' (depth + 1) =
      (fun r => (⟨.op, ")", line, column', offset + column' - 1⟩ :: r.1, r.2)) <$>
        scanLine line offset rest (column' + 1) depth :=
    scanLine_lexeme (c := ')') (by decide) (show lexemeAt ')' ([] ++ rest) = .ok (.op, [')']) from rfl) _ _ _ _
  rw [List.cons_append, List.append_assoc, List.singleton_append, hopen, hscan, hclose]
  cases scanLine line offset rest (column' + 1) depth <;> simp

/-! ## Words -/

/-- A word that is scanned as a name. -/
def IsName (word : String) : Prop := ∃ c rest, word.toList = c :: rest ∧ lexemeAt c rest = .ok (.name, c :: rest)

theorem neat_of_all (h : ∀ c ∈ text, c ≠ '\n' ∧ c ≠ '\r') : Neat text := by
  refine ⟨fun hmem => (h _ hmem).1 rfl, fun hlast => ?_⟩
  exact (h _ (List.mem_of_getLast? hlast)).2 rfl

theorem isWordChar_of_isWordStart {c : Char} (h : isWordStart c = true) : isWordChar c = true := by
  unfold isWordStart at h
  unfold isWordChar
  rcases Bool.or_eq_true_iff.mp h with h | h <;> simp [h]

theorem ne_of_isWordChar {c d : Char} (h : isWordChar c = true) (hd : isWordChar d = false) : c ≠ d := by
  rintro rfl
  rw [h] at hd
  cases hd

theorem takeWhile_bounded {p : Char → Bool} {body rest : List Char} (hbody : ∀ d ∈ body, p d = true)
    (hrest : ∀ d ∈ rest.head?, p d = false) : (body ++ rest).takeWhile p = body := by
  rw [List.takeWhile_append_of_pos hbody]
  cases rest with
  | nil => simp
  | cons d rest => simp [hrest d (by simp)]

theorem dropWhile_bounded {p : Char → Bool} {body rest : List Char} (hbody : ∀ d ∈ body, p d = true)
    (hrest : ∀ d ∈ rest.head?, p d = false) : (body ++ rest).dropWhile p = rest := by
  rw [List.dropWhile_append_of_pos hbody]
  cases rest with
  | nil => simp
  | cons d rest => simp [hrest d (by simp)]

/-- A word as a piece. -/
theorem writes_word {c : Char} {body : List Char}
    (hc : isWordStart c = true) (hbody : ∀ d ∈ body, isWordChar d = true) :
    Writes Bounded (c :: body) (One (wordKind (String.ofList (c :: body))) (c :: body)) := by
  have hall : ∀ d ∈ c :: body, isWordChar d = true :=
    List.forall_mem_cons.mpr ⟨isWordChar_of_isWordStart hc, hbody⟩
  refine writes_token (ne_of_isWordChar (hall c (by simp)) (by decide))
    (neat_of_all fun d hd => ?_) ?_ fun rest hrest => ?_
  · exact ⟨ne_of_isWordChar (hall d hd) (by decide), ne_of_isWordChar (hall d hd) (by decide)⟩
  · intro hop
    rcases wordKind_cases (String.ofList (c :: body)) with h | h | h <;> rw [h] at hop <;> cases hop
  · have htab : c ≠ '\t' := ne_of_isWordChar (hall c (by simp)) (by decide)
    unfold lexemeAt
    rw [if_neg htab, if_pos hc, takeWhile_bounded hbody fun d hd => (hrest d hd).1]

theorem IsName.letters {word : String} (h : IsName word) : ∃ c body, word.toList = c :: body ∧ isWordStart c = true ∧
    (∀ d ∈ body, isWordChar d = true) ∧ wordKind word = .name := by
  obtain ⟨c, body, hword, h⟩ := h
  have hof : String.ofList (c :: body) = word := by rw [← hword, String.ofList_toList]
  unfold lexemeAt at h
  split at h
  · cases h
  split at h
  · rename_i hc
    obtain ⟨hkind, htext⟩ := Prod.mk.inj (Except.ok.inj h)
    rw [htext, hof] at hkind
    refine ⟨c, body, hword, hc, fun d hd => ?_, hkind⟩
    rw [← (List.cons.inj htext).2] at hd
    exact List.all_eq_true.mp List.all_takeWhile d hd
  split at h
  · cases h
  split at h
  · obtain ⟨_, -, h⟩ := Success.map_iff.mp h
    cases h
  split at h
  · obtain ⟨_, -, h⟩ := Success.map_iff.mp h
    cases h
  split at h <;> cases h

/-- A name as a piece. -/
theorem IsName.writes {word : String} (h : IsName word) :
    Writes Bounded word.toList fun ts => ∃ t : Token, ts = [t] ∧ t.Stands .name ∧ t.lexeme = word := by
  obtain ⟨c, body, hword, hc, hbody, hkind⟩ := h.letters
  have hof : String.ofList (c :: body) = word := by rw [← hword, String.ofList_toList]
  rw [hword]
  refine (writes_word hc hbody).imp ?_
  rintro ts ⟨t, rfl, hk, hl⟩
  rw [hof] at hk hl
  refine ⟨t, rfl, ?_, hl⟩
  simp [Stands, Grammar.Terminal.ofToken?, hk, hkind]

/-! ## Numbers -/

theorem isWordChar_of_isDigit {c : Char} (h : isDigit c = true) : isWordChar c = true :=
  Decimal.of_isPlainDigit (P := fun c => isWordChar c = true) (by decide) h

section Number

variable {whole fraction : List Char} (hne : whole ≠ []) (hw : ∀ c ∈ whole, isDigit c = true)
  (hf : ∀ c ∈ fraction, isDigit c = true)
include hw hf

/-- Plain decimals are taken to their end. -/
theorem numberText_plainText {rest : List Char} (hrest : Bounded rest) :
    numberText (Decimal.plainText whole fraction ++ rest) = Decimal.plainText whole fraction := by
  have hstop : ∀ d ∈ rest.head?, isDigit d = false := fun d hd => by
    have := (hrest d hd).1
    by_contra hdigit
    rw [isWordChar_of_isDigit (by simpa using hdigit)] at this
    cases this
  unfold Decimal.plainText
  split
  · unfold numberText
    simp only [takeWhile_bounded hw hstop, dropWhile_bounded hw hstop]
    split
    · exact absurd rfl (hrest '.' (by simp)).2
    · rfl
  · rename_i hempty
    obtain ⟨d, fraction, rfl⟩ := List.exists_cons_of_ne_nil (by simpa using hempty)
    obtain ⟨hd, hf⟩ := List.forall_mem_cons.mp hf
    have hpoint : ∀ e ∈ ('.' :: (d :: fraction ++ rest)).head?, isDigit e = false := by simp; decide
    unfold numberText
    simp only [List.append_assoc, List.cons_append] at hpoint ⊢
    simp only [takeWhile_bounded hw hpoint, dropWhile_bounded hw hpoint, hd, if_true, takeWhile_bounded hf hstop]

include hne

/-- Plain decimals are one token. -/
theorem lexemeAt_plainText : ∃ c body, Decimal.plainText whole fraction = c :: body ∧ isDigit c = true ∧
    ∀ rest, Bounded rest → lexemeAt c (body ++ rest) = .ok (.number, c :: body) := by
  obtain ⟨c, whole, rfl⟩ := List.exists_cons_of_ne_nil hne
  obtain ⟨body, htext⟩ : ∃ body, Decimal.plainText (c :: whole) fraction = c :: body := by
    unfold Decimal.plainText
    split <;> exact ⟨_, rfl⟩
  have hc := hw c (by simp)
  refine ⟨c, body, htext, hc, fun rest hrest => ?_⟩
  have htab : c ≠ '\t' := Decimal.of_isPlainDigit (P := fun c => c ≠ '\t') (by decide) hc
  have hword : isWordStart c = false := Decimal.of_isPlainDigit (P := fun c => isWordStart c = false) (by decide) hc
  unfold lexemeAt
  rw [if_neg htab, if_neg (by simp [hword]), if_pos hc, ← List.cons_append, ← htext, numberText_plainText hw hf hrest]

/-- Plain decimals as a piece. -/
theorem writes_number :
    Writes Bounded (Decimal.plainText whole fraction) (One .number (Decimal.plainText whole fraction)) := by
  have hplain := Decimal.isPlain_plainText hw hf
  obtain ⟨c, body, htext, hc, htaken⟩ := lexemeAt_plainText hne hw hf
  rw [htext] at hplain ⊢
  refine writes_token ?_ (neat_of_all fun d hd => ?_) (fun h => by cases h) htaken
  · exact Decimal.of_isPlainDigit (P := fun c => c ≠ ' ') (by decide) hc
  · exact Decimal.of_isPlain (P := fun c => c ≠ '\n' ∧ c ≠ '\r') (by decide) (by decide) (hplain d hd)

end Number

/-! ## Quoted texts -/

section Quoted

open Text.Quoted
open Parse (literalOf? textOf)

variable {quote : Char} (hquote : quote = '"' ∨ quote = '\'')
include hquote

/-- A character is written by an escape or as it is. -/
theorem encodeChar_cases (c : Char) : (∃ e, encodeChar quote c = ['\\', e] ∧ unescape? e = some c ∧ e ≠ '\n') ∨
    encodeChar quote c = [c] ∧ c ≠ '\\' ∧ c ≠ quote ∧ c ≠ '\n' := by
  unfold encodeChar
  split
  · rename_i h
    subst h
    refine .inl ⟨c, rfl, ?_⟩
    rcases hquote with rfl | rfl <;> decide
  · rename_i h
    split
    · rename_i e he
      refine .inl ⟨e, rfl, ?_⟩
      unfold escape? at he
      split at he <;> first | cases he; decide | cases he
    · rename_i he
      refine .inr ⟨rfl, ?_, h, ?_⟩
      · rintro rfl
        cases he
      · rintro rfl
        cases he

theorem quotedTail_encodeBody (unterminated : Fault) (offset : Nat) (s rest : List Char) :
    quotedTail quote unterminated offset (encodeBody quote s ++ quote :: rest) =
      .ok (encodeBody quote s ++ [quote], s.length) := by
  induction s generalizing offset with
  | nil => rcases hquote with rfl | rfl <;> simp [encodeBody, quotedTail]
  | cons c s ih =>
    rw [encodeBody, List.flatMap_cons, ← encodeBody]
    rcases encodeChar_cases hquote c with ⟨e, hchar, he, -⟩ | ⟨hchar, hslash, hne, -⟩
    · rw [hchar]
      simp [quotedTail, he, ih]
    · rw [hchar, List.singleton_append, List.cons_append]
      conv_lhs => unfold quotedTail
      split <;> simp_all

theorem decodeBody_encodeBody (s : List Char) : decodeBody (encodeBody quote s) = .ok s := by
  induction s with
  | nil => rfl
  | cons c s ih =>
    rw [encodeBody, List.flatMap_cons, ← encodeBody]
    rcases encodeChar_cases hquote c with ⟨e, hchar, he, -⟩ | ⟨hchar, hslash, -, -⟩
    · rw [hchar]
      simp [decodeBody, he, ih]
    · rw [hchar, List.singleton_append, decodeBody_cons hslash, ih]
      rfl

theorem neat_encode (s : List Char) : Neat (encode quote s) := by
  have hbody : '\n' ∉ encodeBody quote s := by
    intro hmem
    obtain ⟨c, -, hc⟩ := List.mem_flatMap.mp hmem
    rcases encodeChar_cases hquote c with ⟨e, hchar, -, he⟩ | ⟨hchar, -, -, hne⟩
    · rw [hchar] at hc
      simp [Ne.symm he] at hc
    · rw [hchar] at hc
      exact hne (List.mem_singleton.mp hc).symm
  have hne : '\n' ≠ quote ∧ quote ≠ '\r' := by rcases hquote with rfl | rfl <;> decide
  refine ⟨by simp [encode, hbody, hne.1], ?_⟩
  rw [encode, ← List.cons_append, List.getLast?_concat]
  exact fun h => hne.2 (Option.some.inj h)

theorem decode_encode (s : List Char) : decode (encode quote s) = .ok s := by
  rw [decode, encode, List.tail_cons, List.dropLast_concat, decodeBody_encodeBody hquote]

theorem textOf_encode {t : Token} {s : List Char} (h : t.lexeme = String.ofList (encode quote s)) :
    textOf t = .ok (String.ofList s) := by
  rw [textOf, h, String.toList_ofList, decode_encode hquote]

omit hquote

theorem lexemeAt_encode_string (s rest : List Char) :
    lexemeAt '"' (encodeBody '"' s ++ ['"'] ++ rest) = .ok (.string, encode '"' s) := by
  have htail : quotedTail '"' .unterminatedString 1 (encodeBody '"' s ++ ['"'] ++ rest) =
      .ok (encodeBody '"' s ++ ['"'], s.length) := by
    rw [List.append_assoc]
    exact quotedTail_encodeBody (.inl rfl) _ _ _ _
  change (fun text => (Kind.string, text)) <$> stringText (encodeBody '"' s ++ ['"'] ++ rest) = _
  rw [stringText, htail]
  rfl

theorem lexemeAt_encode_char (c : Char) (rest : List Char) :
    lexemeAt '\'' (encodeBody '\'' [c] ++ ['\''] ++ rest) = .ok (.char, encode '\'' [c]) := by
  have htail : quotedTail '\'' .unterminatedCharacter 1 (encodeBody '\'' [c] ++ ['\''] ++ rest) =
      .ok (encodeBody '\'' [c] ++ ['\''], 1) := by
    rw [List.append_assoc]
    exact quotedTail_encodeBody (.inr rfl) _ _ _ _
  change (fun text => (Kind.char, text)) <$> charText (encodeBody '\'' [c] ++ ['\''] ++ rest) = _
  rw [charText, htail]
  rfl

/-- A string literal as a piece. -/
theorem writes_string (s : List Char) :
    Writes Anything (encode '"' s) fun ts =>
      ∃ t : Token, ts = [t] ∧ literalOf? t = some (.ok (.str (String.ofList s))) := by
  have hquote : '"' = '"' ∨ '"' = '\'' := .inl rfl
  have htoken : Writes Anything (encode '"' s) (One .string (encode '"' s)) :=
    writes_token (by decide) (neat_encode hquote s) (fun h => by cases h) fun rest _ => lexemeAt_encode_string s rest
  refine htoken.imp ?_
  rintro ts ⟨t, rfl, hk, hl⟩
  exact ⟨t, rfl, by simp [literalOf?, hk, textOf_encode hquote hl]⟩

/-- A character literal as a piece. -/
theorem writes_char (c : Char) :
    Writes Anything (encode '\'' [c]) fun ts =>
      ∃ t : Token, ts = [t] ∧ literalOf? t = some (.ok (.char (String.ofList [c]))) := by
  have hquote : '\'' = '"' ∨ '\'' = '\'' := .inr rfl
  have htoken : Writes Anything (encode '\'' [c]) (One .char (encode '\'' [c])) :=
    writes_token (by decide) (neat_encode hquote [c]) (fun h => by cases h) fun rest _ => lexemeAt_encode_char c rest
  refine htoken.imp ?_
  rintro ts ⟨t, rfl, hk, hl⟩
  exact ⟨t, rfl, by simp [literalOf?, hk, textOf_encode hquote hl]⟩

end Quoted

/-! ## Keywords and operators -/

/-- A word of the language as a piece. -/
theorem writes_keyword {word : String} {x : Grammar.Terminal} (hword : ∃ c body, word.toList = c :: body ∧
    isWordStart c = true ∧ ∀ d ∈ body, isWordChar d = true) (hkind : wordKind word = .keyword)
    (hx : Grammar.Terminal.ofText? word = some x) :
    Writes Bounded word.toList fun ts => ∃ t : Token, ts = [t] ∧ t.Stands x := by
  obtain ⟨c, body, hlist, hc, hbody⟩ := hword
  have hof : String.ofList (c :: body) = word := by rw [← hlist, String.ofList_toList]
  rw [hlist]
  refine (writes_word hc hbody).imp ?_
  rintro ts ⟨t, rfl, hk, hl⟩
  rw [hof] at hk hl
  refine ⟨t, rfl, ?_⟩
  simp [Stands, Grammar.Terminal.ofToken?, hk, hkind, hl, hx]

/-- A text goes on with a space. -/
def Spaced (rest : List Char) : Prop := rest.head? = some ' '

/-- An operator as a piece. -/
theorem writes_op {op : String} {x : Grammar.Terminal} {c : Char} {body : List Char} (hop : op.toList = c :: body)
    (hc : c ≠ ' ') (hneat : Neat (c :: body)) (hparen : c :: body ≠ ['('] ∧ c :: body ≠ [')'])
    (h : ∀ rest, follow rest → lexemeAt c (body ++ rest) = .ok (.op, c :: body))
    (hx : Grammar.Terminal.ofText? op = some x) :
    Writes follow op.toList fun ts => ∃ t : Token, ts = [t] ∧ t.Stands x ∧ t.lexeme = op := by
  have hof : String.ofList (c :: body) = op := by rw [← hop, String.ofList_toList]
  rw [hop]
  refine (writes_token hc hneat (fun _ => hparen) h).imp ?_
  rintro ts ⟨t, rfl, hk, hl⟩
  rw [hof] at hl
  exact ⟨t, rfl, stands_op hk (hl ▸ hx), hl⟩

/-- The operators that are written between two spaces. -/
def spacedOps : List String := ["==", "<", ">", "+", "-", "*", "/", "=", "->"]

theorem writes_spacedOp (op : String) (x : Grammar.Terminal) (hop : op ∈ spacedOps)
    (hx : Grammar.Terminal.ofText? op = some x) :
    Writes Anything (' ' :: (op.toList ++ [' '])) fun ts => ∃ t : Token, ts = [t] ∧ t.Stands x ∧ t.lexeme = op := by
  have hlex : ∃ c body, op.toList = c :: body ∧ c ≠ ' ' ∧ Neat (c :: body) ∧ (c :: body ≠ ['('] ∧ c :: body ≠ [')']) ∧
      ∀ rest, lexemeAt c (body ++ ' ' :: rest) = .ok (.op, c :: body) := by
    simp only [spacedOps, List.mem_cons, List.not_mem_nil, or_false] at hop
    rcases hop with rfl | rfl | rfl | rfl | rfl | rfl | rfl | rfl | rfl <;>
      exact ⟨_, _, rfl, by decide, by unfold Neat; decide, by decide, fun _ => rfl⟩
  obtain ⟨c, body, hlist, hc, hneat, hparen, hlex⟩ := hlex
  have hwrites : Writes Spaced op.toList fun ts => ∃ t : Token, ts = [t] ∧ t.Stands x ∧ t.lexeme = op := by
    refine writes_op hlist hc hneat hparen (fun rest hrest => ?_) hx
    obtain ⟨rest, rfl⟩ : ∃ rest', rest = ' ' :: rest' := by
      cases rest with
      | nil => cases hrest
      | cons d rest => exact ⟨rest, by rw [Option.some.inj hrest]⟩
    exact hlex rest
  exact (hwrites.space fun _ => rfl).spaceBefore

/-- A prefix operator, which may be followed by anything. -/
theorem writes_unaryOp {op : String} (hop : op = "!" ∨ op = "~") :
    Writes Anything op.toList fun ts => ∃ t : Token, ts = [t] ∧ t.Stands .unaryOp ∧ t.lexeme = op := by
  rcases hop with rfl | rfl
  · exact writes_op rfl (by decide) (by unfold Neat; decide) (by decide) (fun _ _ => rfl) rfl
  · exact writes_op rfl (by decide) (by unfold Neat; decide) (by decide) (fun _ _ => rfl) rfl

/-- The comma between two parameters or arguments. -/
theorem writes_comma : Writes Anything [',', ' '] fun ts => ∃ t : Token, ts = [t] ∧ t.Stands .comma := by
  have hcomma : Writes Anything ",".toList fun ts => ∃ t : Token, ts = [t] ∧ t.Stands .comma ∧ t.lexeme = "," :=
    writes_op rfl (by decide) (by unfold Neat; decide) (by decide) (fun _ _ => rfl) rfl
  refine (hcomma.space fun _ => trivial).imp ?_
  rintro ts ⟨t, rfl, ht, -⟩
  exact ⟨t, rfl, ht⟩

end TillLang.Token
