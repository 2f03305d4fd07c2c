/-
  TillLang.Proofs.Parse.Consumed — how many tokens the descent uses up for an expression.

  The tokens are any at all here, in any order, as long as the end of the text is the last of them; no parser of
  expressions takes it, so the cursor moves on behind every token that is taken (`Cursor.next_of_ends`). To return an
  expression the descent has to take at least as many tokens as the text of the expression has (`expression_consumes`).
  The reason is that of the printer: an operand that does not belong to the layer it is read in can only have come out
  of parentheses. So what is counted for an expression depends on the layer it stands in (`Print.countAt`). It is carried
  through the layers by induction on the operators that are read, and through the nesting by induction on the depth.
-/

import TillLang.Proofs.Parse.Sound
import TillLang.Proofs.Print.Count

namespace TillLang.Parse

open Print (countOf countsOf countAt layerOf)
open Syntax (precedence?)

/-! ## Cursors in front of the end -/

/-- The last token is the end of the text. -/
def Cursor.Ends (c : Cursor) : Prop := ∃ last, c.tokens.getLast? = some last ∧ last.kind = .eof

/-- Behind any other token than the end of the text a cursor moves on. -/
theorem Cursor.next_of_ends {c : Cursor} (h : c.Ends) (hk : c.head.kind ≠ .eof) :
    c.next.Ends ∧ c.tokens.length = c.next.tokens.length + 1 := by
  obtain ⟨head, tail⟩ := c
  obtain ⟨last, hlast, heof⟩ := h
  cases tail with
  | nil =>
    obtain rfl : head = last := by simpa [Cursor.tokens] using hlast
    exact absurd heof hk
  | cons t ts => exact ⟨⟨last, by simpa [Cursor.tokens, Cursor.next] using hlast, heof⟩, rfl⟩

/-- A label that is the word for no kind of token. -/
def IsText (label : String) : Prop := ∀ kind : Token.Kind, kind.label ≠ label

instance (label : String) : Decidable (IsText label) :=
  decidable_of_iff (∀ kind ∈ Token.Kind.all, kind.label ≠ label) <| by
    refine ⟨fun h kind => h kind ?_, fun h kind _ => h kind⟩
    cases kind <;> decide

theorem answersTo_text {t : Token} {label : String} (hlabel : IsText label) (h : t.answersTo label = true) :
    t.kind ≠ .eof ∧ t.lexeme = label := by
  have hkind : (t.kind.label == label) = false := beq_eq_false_iff_ne.mpr (hlabel t.kind)
  simp only [Token.answersTo, hkind, Bool.false_or, Bool.and_eq_true, Bool.or_eq_true, beq_iff_eq] at h
  refine ⟨fun heof => ?_, h.2⟩
  rw [heof] at h
  rcases h.1 with h | h <;> cases h

section Steps

variable {c : Cursor} (hends : c.Ends)
include hends

theorem next_of_sees {labels : List String} (hlabels : ∀ label ∈ labels, IsText label) (h : c.sees labels = true) :
    c.head.lexeme ∈ labels ∧ c.next.Ends ∧ c.tokens.length = c.next.tokens.length + 1 := by
  obtain ⟨label, hmem, hanswers⟩ := List.any_eq_true.mp h
  obtain ⟨hkind, hlexeme⟩ := answersTo_text (hlabels label hmem) hanswers
  exact ⟨hlexeme ▸ hmem, Cursor.next_of_ends hends hkind⟩

theorem next_of_expect {label description : String} {t : Token} {c' : Cursor} (hlabel : IsText label)
    (h : c.expect label description = .ok (t, c')) : c'.Ends ∧ c.tokens.length = c'.tokens.length + 1 := by
  unfold Cursor.expect at h
  split at h
  · rename_i hanswers
    obtain ⟨-, rfl⟩ := Prod.mk.inj (Except.ok.inj h)
    exact Cursor.next_of_ends hends (answersTo_text hlabel hanswers).1
  · cases h

end Steps

/-- To return something a parser takes no fewer tokens than that costs. -/
def Consumes {α : Type} (p : Parser α) (cost : α → Nat) : Prop :=
  ∀ c a c', c.Ends → p c = .ok (a, c') → c'.Ends ∧ cost a + c'.tokens.length ≤ c.tokens.length

theorem Consumes.whole {p : Parser Node} {k : Nat} (h : Consumes p (countAt k)) : Consumes p countOf := by
  intro c n c' hends hp
  obtain ⟨hends', hcost⟩ := h c n c' hends hp
  exact ⟨hends', Nat.le_trans (Nat.add_le_add_right Print.countOf_le_countAt _) hcost⟩

/-! ## Layers -/

theorem isText_of_precedence {op : String} {level : Nat} (h : precedence? op = some level) : IsText op := by
  rintro kind rfl
  have hnone : precedence? kind.label = none := by cases kind <;> rfl
  rw [hnone] at h
  cases h

section Layers

variable {p : Parser Node} {k : Nat} {ops : List String} (hk : k < layerCount)
  (hops : ∀ op ∈ ops, precedence? op = some (layerCount - k)) (hp : Consumes p (countAt k))
include hk hops hp

theorem chain_consumes (steps : Nat) {left n : Node} {c c' : Cursor} (hends : c.Ends)
    (h : chain ops p steps left c = .ok (n, c')) :
    c'.Ends ∧ countAt (k + 1) n + c'.tokens.length ≤ countAt (k + 1) left + c.tokens.length := by
  induction steps generalizing left c with
  | zero =>
    obtain ⟨rfl, rfl⟩ := Prod.mk.inj (Except.ok.inj h)
    exact ⟨hends, Nat.le_refl _⟩
  | succ steps ih =>
    rw [chain] at h
    split at h
    · rename_i hop
      obtain ⟨⟨right, after⟩, hright, h⟩ := Success.bind_iff.mp h
      obtain ⟨hmem, hnext, hlen⟩ := next_of_sees hends (fun op hop => isText_of_precedence (hops op hop)) hop
      obtain ⟨hafter, hcost⟩ := hp _ _ _ hnext hright
      obtain ⟨hends', hrest⟩ := ih hafter h
      have hlevel := hops _ hmem
      have hlayer := Print.layerOf_binary hk hlevel left right (some c.head.location.position)
      rw [Print.countAt_of_le (Nat.le_of_eq hlayer), Print.countOf_binary _ hk hlevel] at hrest
      exact ⟨hends', by omega⟩
    · obtain ⟨rfl, rfl⟩ := Prod.mk.inj (Except.ok.inj h)
      exact ⟨hends, Nat.le_refl _⟩

theorem layer_consumes : Consumes (layer ops p) (countAt (k + 1)) := by
  intro c n c' hends h
  obtain ⟨⟨left, after⟩, hleft, h⟩ := Success.bind_iff.mp h
  obtain ⟨hafter, hcost⟩ := hp _ _ _ hends hleft
  obtain ⟨hends', hrest⟩ := chain_consumes hk hops hp _ hafter h
  have hwider : countAt (k + 1) left ≤ countAt k left := Print.countAt_mono (Nat.le_succ k)
  exact ⟨hends', by omega⟩

end Layers

theorem layers_consumes {p : Parser Node} (hp : Consumes p (countAt 0)) : Consumes (layers p) (countAt layerCount) := by
  have hfactors : Consumes (layer ["*", "/"] p) (countAt 1) := layer_consumes (by decide) (by decide) hp
  have hterms : Consumes (layer ["+", "-"] _) (countAt 2) := layer_consumes (by decide) (by decide) hfactors
  have horders : Consumes (layer ["<", ">"] _) (countAt 3) := layer_consumes (by decide) (by decide) hterms
  exact layer_consumes (by decide) (by decide) horders

/-! ## Expressions -/

theorem kind_ne_eof_of_literal {t : Token} {literal : Except Fault Literal} (h : literalOf? t = some literal) :
    t.kind ≠ .eof := by
  intro hk
  have hordinary := isOrdinary_of_literal h
  rw [hk] at hordinary
  cases hordinary

section Arguments

variable {e : Parser Node} (he : Consumes e countOf)
include he

/-- Every further argument has a comma in front of it. -/
theorem moreArguments_consumes (steps : Nat) : Consumes (moreArguments e steps) countsOf := by
  induction steps with
  | zero =>
    intro c ns c' hends h
    obtain ⟨rfl, rfl⟩ := Prod.mk.inj (Except.ok.inj h)
    exact ⟨hends, by simp [countsOf]⟩
  | succ steps ih =>
    intro c ns c' hends h
    rw [moreArguments] at h
    split at h
    · rename_i hcomma
      obtain ⟨⟨arg, after⟩, harg, h⟩ := Success.bind_iff.mp h
      obtain ⟨⟨args, last⟩, hargs, h⟩ := Success.bind_iff.mp h
      obtain ⟨rfl, rfl⟩ := Prod.mk.inj (Except.ok.inj h)
      obtain ⟨-, hnext, hlen⟩ := next_of_sees hends (by decide) hcomma
      obtain ⟨hafter, hcost⟩ := he _ _ _ hnext harg
      obtain ⟨hends', hcosts⟩ := ih _ _ _ hafter hargs
      rw [countsOf]
      exact ⟨hends', by omega⟩
    · obtain ⟨rfl, rfl⟩ := Prod.mk.inj (Except.ok.inj h)
      exact ⟨hends, by simp [countsOf]⟩

/-- Arguments have parentheses around them, and one comma less than there are arguments. -/
theorem arguments_consumes {c c' : Cursor} {args : List Node} (hends : c.Ends)
    (h : arguments e c = .ok (args, c')) :
    c'.Ends ∧ countsOf args - 1 + 2 + c'.tokens.length ≤ c.tokens.length := by
  obtain ⟨⟨_, c₁⟩, hlp, h⟩ := Success.bind_iff.mp h
  obtain ⟨hends₁, hlen⟩ := next_of_expect hends (by decide) hlp
  simp only at h
  split at h
  · rename_i hrp
    simp only [Success.pure_eq, Except.ok.injEq, Prod.mk.injEq] at h
    obtain ⟨rfl, rfl⟩ := h
    obtain ⟨-, hnext, hlen'⟩ := next_of_sees hends₁ (by decide) hrp
    exact ⟨hnext, by simp only [countsOf]; omega⟩
  · obtain ⟨⟨arg, c₂⟩, harg, h⟩ := Success.bind_iff.mp h
    obtain ⟨⟨others, c₃⟩, hothers, h⟩ := Success.bind_iff.mp h
    obtain ⟨⟨_, c₄⟩, hrp, h⟩ := Success.bind_iff.mp h
    simp only [Success.pure_eq, Except.ok.injEq, Prod.mk.injEq] at h
    obtain ⟨rfl, rfl⟩ := h
    obtain ⟨hends₂, hcost⟩ := he _ _ _ hends₁ harg
    obtain ⟨hends₃, hcosts⟩ := moreArguments_consumes he _ _ _ _ hends₂ hothers
    obtain ⟨hends₄, hlen'⟩ := next_of_expect hends₃ (by decide) hrp
    refine ⟨hends₄, ?_⟩
    rw [countsOf]
    omega

/-- What comes out of parentheses may stand in every layer. -/
theorem primary_consumes : Consumes (primary e) (countAt 0) := by
  intro c n c' hends h
  unfold primary at h
  simp only at h
  split at h
  · rename_i literal hliteral
    obtain ⟨v, -, h⟩ := Success.bind_iff.mp h
    simp only [Success.pure_eq, Except.ok.injEq, Prod.mk.injEq] at h
    obtain ⟨rfl, rfl⟩ := h
    obtain ⟨hnext, hlen⟩ := Cursor.next_of_ends hends (kind_ne_eof_of_literal hliteral)
    rw [Print.countAt_literal]
    exact ⟨hnext, by omega⟩
  split at h
  · rename_i hk
    obtain ⟨hnext, hlen⟩ := Cursor.next_of_ends hends (by rw [hk]; decide)
    split at h
    · obtain ⟨⟨args, after⟩, hargs, h⟩ := Success.bind_iff.mp h
      simp only [Success.pure_eq, Except.ok.injEq, Prod.mk.injEq] at h
      obtain ⟨rfl, rfl⟩ := h
      obtain ⟨hends', hcost⟩ := arguments_consumes he hnext hargs
      rw [Print.countAt_call]
      exact ⟨hends', by omega⟩
    · simp only [Except.ok.injEq, Prod.mk.injEq] at h
      obtain ⟨rfl, rfl⟩ := h
      rw [Print.countAt_identifier]
      exact ⟨hnext, by omega⟩
  split at h
  · rename_i hlp
    obtain ⟨-, hnext, hlen⟩ := next_of_sees hends (by decide) hlp
    obtain ⟨⟨inner, c₂⟩, hinner, h⟩ := Success.bind_iff.mp h
    obtain ⟨⟨_, c₃⟩, hrp, h⟩ := Success.bind_iff.mp h
    simp only [Success.pure_eq, Except.ok.injEq, Prod.mk.injEq] at h
    obtain ⟨rfl, rfl⟩ := h
    obtain ⟨hends₂, hcost⟩ := he _ _ _ hnext hinner
    obtain ⟨hends₃, hlen'⟩ := next_of_expect hends₂ (by decide) hrp
    have hparens : countAt 0 inner ≤ countOf inner + 2 := Print.countAt_le
    exact ⟨hends₃, by omega⟩
  · cases h

end Arguments

theorem operand_consumes (depth : Nat) : Consumes (operand depth) (countAt 0) := by
  induction depth with
  | zero =>
    intro c n c' _ h
    cases h
  | succ depth ih =>
    intro c n c' hends h
    rw [operand] at h
    split at h
    · rename_i hop
      obtain ⟨⟨inner, after⟩, hinner, h⟩ := Success.bind_iff.mp h
      simp only [Success.pure_eq, Except.ok.injEq, Prod.mk.injEq] at h
      obtain ⟨rfl, rfl⟩ := h
      obtain ⟨-, hnext, hlen⟩ := next_of_sees hends (by decide) hop
      obtain ⟨hends', hcost⟩ := ih _ _ _ hnext hinner
      rw [Print.countAt_unary]
      exact ⟨hends', by omega⟩
    · exact primary_consumes (layers_consumes ih).whole _ _ _ hends h

/-- To return an expression the descent takes no fewer tokens than the text of the expression has. -/
theorem expression_consumes (depth : Nat) : Consumes (expression depth) countOf :=
  (layers_consumes (operand_consumes depth)).whole

end TillLang.Parse
