/-
  TillLang.Proofs.Print.Expression — the text of an expression spells the expression.

  Printed expressions hold no more parentheses than they need. Which layer of the grammar the
  text of an expression belongs to is said by its outermost operator (`layerOf`); where an operand
  stands in a layer that does not hold its own, the printer writes parentheses around it, and with
  them it belongs to the lowest layer. So the text of an expression in its place is scanned as
  tokens that spell it (`Printed`), nested as deep as its parentheses make it (`depthOf`).
-/

import TillLang.Proofs.Print.Depth
import TillLang.Proofs.Syntax.Bare
import TillLang.Proofs.Token.Written

namespace TillLang.Print

open Token (Writes Bounded Anything IsName)
open Parse (Spells layerCount operatorAt literalOf?)
open Syntax
open Grammar (Terminal)

variable {form : Literal → Literal} {lit : Literal → Prop}

/-! ## Layers -/

/-- Tokens spell an expression, up to positions. -/
def SpellsLike (form : Literal → Literal) (d k : Nat) (n : Node) (ts : List Token) : Prop :=
  ∃ n', Spells d (.layer k) ts [n'] ∧ n'.bare form = n.bare form

theorem SpellsLike.lift {d k j : Nat} {n : Node} {ts : List Token} (h : SpellsLike form d k n ts) (hk : k ≤ j)
    (hj : j ≤ layerCount) : SpellsLike form d j n ts := by
  induction j, hk using Nat.le_induction with
  | base => exact h
  | succ j _ ih =>
    obtain ⟨n', hn', heq⟩ := ih (by omega)
    exact ⟨n', .lift (by omega) hn', heq⟩

/-! ## Pieces -/

/-- A literal whose text is read as a literal of the same form. -/
def Legible (form : Literal → Literal) (v : Literal) : Prop :=
  (∀ x, v = .num x → isNegative x = false) ∧ ∃ text, printLiteral v = .ok text ∧
    Writes Bounded text.toList fun ts => ∃ t w, ts = [t] ∧ literalOf? t = some (.ok w) ∧ form w = form v

/-- An expression in parentheses. -/
theorem writes_parens {d k : Nat} {n : Node} {text : List Char} (h : Writes Bounded text (SpellsLike form d k n))
    (hk : k ≤ layerCount) : Writes Bounded ('(' :: (text ++ [')'])) (SpellsLike form (d + 1) 0 n) := by
  refine h.parens.anywhere.imp ?_
  rintro _ ⟨lp, ts, rp, rfl, hlp, hts, hrp⟩
  obtain ⟨n', hn', heq⟩ := hts.lift hk (Nat.le_refl _)
  exact ⟨n', .parens hlp hn' hrp, heq⟩

/-- An operand, with the parentheses it needs to stand in a layer. -/
theorem writes_operand {n : Node} {text : String} {needed : Bool} {k : Nat} (hk : k ≤ layerCount)
    (h : Writes Bounded text.toList (SpellsLike form (depthOf n) (layerOf n) n)) (hlayer : layerOf n ≤ layerCount)
    (hfree : needed = false → layerOf n ≤ k) :
    Writes Bounded (parenthesize needed text).toList (SpellsLike form (depthOf n + needed.toNat) k n) := by
  cases needed with
  | true =>
    have hparens := writes_parens h hlayer
    simp only [parenthesize, if_true, String.toList_append]
    exact hparens.imp fun ts hts => hts.lift (Nat.zero_le _) hk
  | false =>
    simp only [parenthesize, Bool.false_eq_true, if_false]
    exact h.imp fun ts hts => hts.lift (hfree rfl) hk

/-- What the precedence of a binary operator says of it. -/
theorem precedence_cases {op : String} {level : Nat} (h : precedence? op = some level) :
    1 ≤ level ∧ level ≤ layerCount ∧ op ∈ Token.spacedOps ∧
      Terminal.ofText? op = some (operatorAt (layerCount - level)) := by
  unfold precedence? at h
  split at h
  case h_8 => cases h
  all_goals
    obtain rfl := Option.some.inj h
    decide

theorem bounded_space (rest : List Char) : Bounded (' ' :: rest) := Token.bounded_of_head (by decide)

/-- The text of an expression is scanned as tokens that spell it. -/
structure Printed (form : Literal → Literal) (n : Node) : Prop where
  layer : layerOf n ≤ layerCount
  writes : ∃ text, printExpr n = .ok text ∧ Writes Bounded text.toList (SpellsLike form (depthOf n) (layerOf n) n)

/-- Where a whole expression may stand. -/
theorem Printed.whole {n : Node} (h : Printed form n) :
    ∃ text, printExpr n = .ok text ∧ Writes Bounded text.toList (SpellsLike form (depthOf n) layerCount n) := by
  obtain ⟨hlayer, text, htext, hwrites⟩ := h
  exact ⟨text, htext, hwrites.imp fun ts hts => hts.lift hlayer (Nat.le_refl _)⟩

/-! ## Items between commas -/

/-- The tokens of items, with commas between them. -/
inductive Commas {α : Type} (P : α → List Token → Prop) : List α → List Token → Prop
  | nil : Commas P [] []
  | one {a : α} {ts : List Token} (h : P a ts) : Commas P [a] ts
  | more {a b : α} {as : List α} {ts us : List Token} {comma : Token} (h : P a ts) (hc : comma.Stands .comma)
      (hs : Commas P (b :: as) us) : Commas P (a :: b :: as) (ts ++ comma :: us)

theorem writes_commas {α : Type} {P : α → List Token → Prop} {items : List α} {texts : List String}
    (h : List.Forall₂ (fun a text => Writes Bounded text.toList (P a)) items texts) :
    Writes Bounded (", ".intercalate texts).toList (Commas P items) := by
  induction h with
  | nil =>
    refine Token.writes_nil.anywhere.imp fun ts hts => ?_
    rw [hts]
    exact .nil
  | @cons a text items texts ha hs ih =>
    cases hs with
    | nil =>
      rw [String.intercalate_singleton]
      exact ha.imp fun ts hts => .one hts
    | cons hb hs =>
      rw [String.intercalate_cons_cons, String.toList_append, String.toList_append, List.append_assoc]
      refine (ha.append (Token.writes_comma.append ih fun _ _ => trivial) fun _ _ => ?_).imp ?_
      · exact Token.bounded_of_head (by decide)
      · rintro _ ⟨ts, _, rfl, hts, _, us, rfl, ⟨comma, rfl, hcomma⟩, hus⟩
        exact .more hts hcomma hus

/-- Arguments, with commas between them, are spelled by their tokens. -/
theorem Commas.arguments {args : List Node} {ts : List Token}
    (h : Commas (fun arg => SpellsLike form (depthOf arg) layerCount arg) args ts) : ts = [] ∧ args = [] ∨
      ∃ ns, Spells (depthsOf args) .arguments ts ns ∧ Node.bares form ns = Node.bares form args := by
  induction h with
  | nil => exact .inl ⟨rfl, rfl⟩
  | one h =>
    obtain ⟨n, hn, heq⟩ := h
    exact .inr ⟨[n], .argsOne (hn.mono (by simp [depthsOf])), by simp [Node.bares, heq]⟩
  | more h hc _ ih =>
    obtain ⟨n, hn, heq⟩ := h
    obtain ⟨-, hnil⟩ | ⟨ns, hns, heqs⟩ := ih
    · cases hnil
    · refine .inr ⟨n :: ns, .argsMore (hn.mono ?_) hc (hns.mono ?_), by simp [Node.bares, heq, heqs]⟩
      · exact Nat.le_max_left _ _
      · exact Nat.le_max_right _ _

theorem printExprs_writes {args : List Node} (h : ∀ arg ∈ args, Printed form arg) :
    ∃ texts, printExprs args = .ok texts ∧ Writes Bounded (", ".intercalate texts).toList
      (Commas (fun arg => SpellsLike form (depthOf arg) layerCount arg) args) := by
  suffices ∃ texts, printExprs args = .ok texts ∧ List.Forall₂
      (fun arg text => Writes Bounded text.toList (SpellsLike form (depthOf arg) layerCount arg)) args texts by
    obtain ⟨texts, htexts, hwrites⟩ := this
    exact ⟨texts, htexts, writes_commas hwrites⟩
  induction args with
  | nil => exact ⟨[], rfl, .nil⟩
  | cons arg args ih =>
    obtain ⟨text, htext, hwrites⟩ := (h arg (by simp)).whole
    obtain ⟨texts, htexts, hmore⟩ := ih fun arg harg => h arg (List.mem_cons_of_mem _ harg)
    exact ⟨text :: texts, by simp [printExprs, htext, htexts], .cons hwrites hmore⟩

/-! ## Expressions -/

section Expressions

variable {position : Option Position}

theorem printed_literal {v : Literal} (h : Legible form v) : Printed form (.literal v position) := by
  obtain ⟨hneg, text, htext, hwrites⟩ := h
  have hlayer : layerOf (.literal v position) = 0 := by
    cases v with
    | num x => simp [layerOf, bindingOf, hneg x rfl, unaryPrecedence, atomPrecedence]
    | other => rfl
  refine ⟨by omega, text, htext, hwrites.imp ?_⟩
  rintro _ ⟨t, w, rfl, hw, heq⟩
  rw [hlayer]
  exact ⟨.literal w t.place, .literal hw, by rw [Node.bare, Node.bare, heq]⟩

theorem printed_identifier {name : String} (h : IsName name) : Printed form (.identifier name position) := by
  refine ⟨Nat.zero_le _, name, rfl, h.writes.imp ?_⟩
  rintro _ ⟨t, rfl, ht, rfl⟩
  exact ⟨.identifier t.lexeme t.place, .identifier ht, rfl⟩

theorem printed_unary {op : String} {operand : Node} (hop : op = "!" ∨ op = "~") (h : Printed form operand) :
    Printed form (.unary op operand position) := by
  obtain ⟨hlayer, text, htext, hwrites⟩ := h
  refine ⟨Nat.zero_le _, op ++ parenthesize (bindingOf operand < unaryPrecedence) text, by simp [printExpr, htext], ?_⟩
  have hoperand : Writes Bounded (parenthesize (bindingOf operand < unaryPrecedence) text).toList
      (SpellsLike form (depthOf operand + (decide (bindingOf operand < unaryPrecedence)).toNat) 0 operand) := by
    refine writes_operand (Nat.zero_le _) hwrites hlayer fun h => ?_
    have hbinding := of_decide_eq_false h
    unfold layerOf
    omega
  rw [String.toList_append]
  refine ((Token.writes_unaryOp hop).append hoperand fun _ _ => trivial).imp ?_
  rintro _ ⟨_, ts, rfl, ⟨t, rfl, ht, rfl⟩, n, hn, heq⟩
  exact ⟨.unary t.lexeme n t.place, .unary ht hn, by rw [Node.bare, Node.bare, heq]⟩

theorem printed_binary {op : String} {level : Nat} {left right : Node} (hop : precedence? op = some level)
    (hl : Printed form left) (hr : Printed form right) : Printed form (.binary op left right position) := by
  obtain ⟨hpos, hle, hspaced, hterminal⟩ := precedence_cases hop
  obtain ⟨hlayerl, leftText, hleft, hwritesl⟩ := hl
  obtain ⟨hlayerr, rightText, hright, hwritesr⟩ := hr
  have hcount : layerCount = 4 := rfl
  have hlayer : layerOf (.binary op left right position) = layerCount - level + 1 := by
    simp only [layerOf, bindingOf, hop, Option.getD_some, unaryPrecedence]
    omega
  -- An operand binds tightly enough exactly if its layer is below the one it stands in.
  have hwl : Writes Bounded (parenthesize (bindingOf left < level) leftText).toList
      (SpellsLike form (depthOf left + (decide (bindingOf left < level)).toNat) (layerCount - level + 1) left) := by
    refine writes_operand (by omega) hwritesl hlayerl fun h => ?_
    simp [layerOf, unaryPrecedence] at h ⊢
    omega
  have hwr : Writes Bounded (parenthesize (bindingOf right ≤ level) rightText).toList
      (SpellsLike form (depthOf right + (decide (bindingOf right ≤ level)).toNat) (layerCount - level) right) := by
    refine writes_operand (by omega) hwritesr hlayerr fun h => ?_
    simp [layerOf, unaryPrecedence] at h ⊢
    omega
  have hprint : printExpr (.binary op left right position) = .ok (parenthesize (bindingOf left < level) leftText ++
      " " ++ op ++ " " ++ parenthesize (bindingOf right ≤ level) rightText) := by
    simp only [printExpr, hop, hleft, hright, Success.ok_bind, Success.pure_eq]
  refine ⟨by omega, _, hprint, ?_⟩
  have htext : (parenthesize (bindingOf left < level) leftText ++ " " ++ op ++ " " ++
      parenthesize (bindingOf right ≤ level) rightText).toList =
      (parenthesize (bindingOf left < level) leftText).toList ++
        (' ' :: (op.toList ++ [' ']) ++ (parenthesize (bindingOf right ≤ level) rightText).toList) := by
    simp [String.toList_append]
  have hdepth : depthOf (.binary op left right position) = max (depthOf left + (decide (bindingOf left < level)).toNat)
      (depthOf right + (decide (bindingOf right ≤ level)).toNat) := by
    rw [depthOf, hop, Option.getD_some]
  rw [htext, hlayer, hdepth]
  refine (hwl.append ((Token.writes_spacedOp _ _ hspaced hterminal).append hwr fun _ _ => trivial) fun _ _ => ?_).imp ?_
  · exact bounded_space _
  · rintro _ ⟨ls, _, rfl, ⟨l, hl, heql⟩, _, rs, rfl, ⟨t, rfl, ht, rfl⟩, r, hr, heqr⟩
    refine ⟨.binary t.lexeme l r t.place, .binary (by omega) (hl.mono ?_) ht (hr.mono ?_), ?_⟩
    · exact Nat.le_max_left _ _
    · exact Nat.le_max_right _ _
    · rw [Node.bare, Node.bare, heql, heqr]

theorem printed_call {callee : String} {args : List Node} (hn : IsName callee) (h : ∀ arg ∈ args, Printed form arg) :
    Printed form (.call callee args position) := by
  obtain ⟨texts, htexts, hwrites⟩ := printExprs_writes h
  have hprint : printExpr (.call callee args position) = .ok (callee ++ "(" ++ ", ".intercalate texts ++ ")") := by
    simp only [printExpr, htexts, Success.ok_bind, Success.pure_eq]
  refine ⟨Nat.zero_le _, _, hprint, ?_⟩
  have htext : (callee ++ "(" ++ ", ".intercalate texts ++ ")").toList =
      callee.toList ++ '(' :: ((", ".intercalate texts).toList ++ [')']) := by
    simp [String.toList_append]
  rw [htext]
  refine (hn.writes.append hwrites.parens.anywhere fun _ _ => ?_).imp ?_
  · exact Token.bounded_of_head (by decide)
  · rintro _ ⟨_, _, rfl, ⟨t, rfl, ht, rfl⟩, lp, us, rp, rfl, hlp, hus, hrp⟩
    obtain ⟨rfl, rfl⟩ | ⟨ns, hns, heq⟩ := hus.arguments
    · exact ⟨.call t.lexeme [] t.place, .callPlain ht hlp hrp, rfl⟩
    · exact ⟨.call t.lexeme ns t.place, .callArgs ht hlp hns hrp, by rw [Node.bare, Node.bare, heq]⟩

end Expressions

end TillLang.Print
