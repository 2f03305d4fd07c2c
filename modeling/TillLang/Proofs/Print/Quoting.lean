/-
  TillLang.Proofs.Print.Quoting — writing, scanning and reading a quoted text agree.

  Three tables and three loops meet at a quoted text: the printer escapes what it has to, the lexer looks for
  the closing quote past the escapes, and the reader resolves them. They agree on every text, whatever stands
  in front of it and behind it in the line (`Quotes`). The other way round, the lexer takes no quoted text
  that the reader refuses, nor a character that is none or several (`quoting_agrees`).
-/

import TillLang.Proofs.Print.Literal

namespace TillLang

open Token (Kind lexemeAt scanLine depthAfter IsTaken)

/-! ## Tokens at a place of a line -/

/-- At the place `start` of a line the lexer emits one token of a kind and with a text, and goes on at `next`. -/
structure Token.EmitsAt (line : List Char) (start : Nat) (kind : Kind) (text : List Char) (next : Nat) : Prop where
  taken : ∃ c rest, line.drop start = c :: rest ∧ lexemeAt c rest = .ok (kind, text)
  scanned : ∀ number offset depth, scanLine number offset (line.drop start) (start + 1) depth =
    (fun r => (⟨kind, String.ofList text, number, start + 1, offset + start⟩ :: r.1, r.2)) <$>
      scanLine number offset (line.drop next) (next + 1) (depthAfter depth kind text)

/-- A token that is taken with everything in front of it and behind it left aside. -/
theorem Token.emitsAt_of_lexemeAt {c : Char} {body after : List Char} {kind : Kind} (hc : c ≠ ' ')
    (h : lexemeAt c (body ++ after) = .ok (kind, c :: body)) (before : List Char) :
    EmitsAt (before ++ (c :: body) ++ after) before.length kind (c :: body) (before ++ (c :: body)).length := by
  have hstart : (before ++ (c :: body) ++ after).drop before.length = c :: body ++ after := by
    rw [List.append_assoc, List.drop_left]
  refine ⟨⟨c, body ++ after, hstart, h⟩, fun number offset depth => ?_⟩
  rw [hstart, List.drop_left, Token.scanLine_lexeme hc h, List.length_append, Nat.add_right_comm]
  rfl

/-! ## Quoted texts -/

/-- Between two quotes a text is one token wherever it stands, and it is read back from that token. -/
structure Text.Quotes (quote : Char) (kind : Kind) (text : List Char) : Prop where
  printed : Syntax.quoteValue quote (.str (String.ofList text)) = .ok (String.ofList (Text.Quoted.encode quote text))
  emitted : ∀ before after, Token.EmitsAt (before ++ Text.Quoted.encode quote text ++ after) before.length kind
    (Text.Quoted.encode quote text) (before ++ Text.Quoted.encode quote text).length
  decoded : Text.Quoted.decode (Text.Quoted.encode quote text) = .ok text

namespace Text

theorem quotes_of_lexemeAt {quote : Char} (hquote : quote = '"' ∨ quote = '\'') {kind : Kind} {text : List Char}
    (h : ∀ rest, lexemeAt quote (Quoted.encodeBody quote text ++ [quote] ++ rest) =
      .ok (kind, Quoted.encode quote text)) :
    Quotes quote kind text where
  printed := by rw [Print.quoteValue_str, String.toList_ofList]
  emitted before after := by
    have hspace : quote ≠ ' ' := by rcases hquote with rfl | rfl <;> decide
    exact Token.emitsAt_of_lexemeAt hspace (h after) before
  decoded := Token.decode_encode hquote text

theorem quotes_string (text : List Char) : Quotes '"' .string text :=
  quotes_of_lexemeAt (.inl rfl) (Token.lexemeAt_encode_string text)

theorem quotes_char (c : Char) : Quotes '\'' .char [c] :=
  quotes_of_lexemeAt (.inr rfl) (Token.lexemeAt_encode_char c)

end Text

/-! ## Quoted tokens -/

/-- The text of a token can be read, and is one character if the token is a character. -/
def Token.Decodes (t : Token) : Prop :=
  ∃ text, Text.Quoted.decode t.lexeme.toList = .ok text ∧ (t.kind = .char → ∃ c, text = [c])

/-- A quoted token that was taken from a text can be read. -/
theorem Token.IsTaken.decodes {t : Token} (h : t.IsTaken) (hk : t.kind = .string ∨ t.kind = .char) : t.Decodes := by
  obtain ⟨literal, hliteral⟩ : ∃ literal : String → Literal,
      Parse.literalOf? t = some (literal <$> Parse.textOf t) ∧ (t.kind = .char → literal = .char) := by
    rcases hk with hk | hk
    · exact ⟨.str, by rw [Parse.literalOf?, hk], by simp [hk]⟩
    · exact ⟨.char, by rw [Parse.literalOf?, hk], fun _ => rfl⟩
  obtain ⟨v, hv⟩ := readable_of_taken (fun _ => h) _ hliteral.1
  obtain ⟨s, hs, rfl⟩ := Success.map_iff.mp hv
  obtain ⟨text, htext, rfl⟩ : ∃ text, Text.Quoted.decode t.lexeme.toList = .ok text ∧ s = String.ofList text := by
    unfold Parse.textOf at hs
    split at hs
    · rename_i text htext
      exact ⟨text, htext, (Except.ok.inj hs).symm⟩
    · cases hs
  refine ⟨text, htext, fun hchar => ?_⟩
  -- the only usual literal that is made as a character is a character
  have husual := h.usual (hliteral.1.trans (congrArg some hv))
  rw [hliteral.2 hchar] at husual
  generalize hw : Literal.char (String.ofList text) = w at husual
  cases husual with
  | char c =>
    refine ⟨c, ?_⟩
    have hlist : String.ofList text = String.singleton c := by simpa [Literal.char] using hw
    simpa using congrArg String.toList hlist
  | num => cases hw
  | str => simp [Literal.char, Literal.str] at hw
  | bool => simp [Literal.char, Literal.bool] at hw

/-- Every text between double quotes, and every character between single ones, is one token wherever it stands in a
line, the lexer goes on right behind it, and the text is read back from the token. Every string or character that
the lexer takes anywhere, and so every one among the tokens of a source text, can be read, a character as one. -/
theorem quoting_agrees :
    (∀ text : List Char, Text.Quotes '"' .string text) ∧ (∀ c : Char, Text.Quotes '\'' .char [c]) ∧
    (∀ t : Token, t.IsTaken → t.kind = .string ∨ t.kind = .char → t.Decodes) ∧
    ∀ source tokens, tokenize source = .ok tokens → ∀ t ∈ tokens, t.kind = .string ∨ t.kind = .char →
      t.IsTaken ∧ t.Decodes := by
  refine ⟨Text.quotes_string, Text.quotes_char, fun t h hk => h.decodes hk, fun source tokens h t ht hk => ?_⟩
  have htaken : t.IsTaken := by
    refine Token.tokenize_taken h t ht ?_
    rcases hk with hk | hk <;> rw [hk] <;> rfl
  exact ⟨htaken, htaken.decodes hk⟩

/-- Backslashes in front of the quotes, and the other quote left bare. -/
def backslashedSource : String := "display \"\\\\\" + '\\'' + \"'\\\\\\\"\"\n"

theorem backslashedSource_decodes : Text.Quotes '"' .string ['\\', '"', '\'', '\\'] ∧
    ∃ tokens, tokenize backslashedSource = .ok tokens ∧ ∃ t ∈ tokens, t.kind = .char ∧ t.IsTaken ∧ t.Decodes := by
  have hgood : ((tokenize backslashedSource).toOption.any fun tokens => tokens.any fun t => t.kind = .char) = true := by
    decide +kernel
  cases htokens : tokenize backslashedSource with
  | error e => simp [htokens, Except.toOption] at hgood
  | ok tokens =>
    rw [htokens] at hgood
    obtain ⟨t, ht, hk⟩ := List.any_eq_true.mp hgood
    have hchar : t.kind = .char := by simpa using hk
    obtain ⟨hstrings, -, -, hsources⟩ := quoting_agrees
    exact ⟨hstrings _, tokens, rfl, t, ht, hchar, hsources _ _ htokens t ht (.inr hchar)⟩

end TillLang
