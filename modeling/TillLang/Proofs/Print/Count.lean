/-
  TillLang.Proofs.Print.Count — how many tokens the text of an expression has.

  Literals, names, operators and commas are one token each, and a pair of parentheses is two; which operands have
  parentheses follows from the layers they stand in and belong to (`countAt`). So many tokens is the text of an
  expression in its place scanned as (`counted_of_placed`), also where a number in it has overflowed: that is written as
  a word, which is no number but one token. A text without a line break is a line of its own, and has no ordinary tokens
  besides (`tokenize_line`).
-/

import TillLang.Proofs.Print.Literal
import TillLang.Proofs.Print.Statement

namespace TillLang.Print

open Token (Writes Bounded IsName IsRead)
open Decimal (floatOfBits infinityBits)
open Syntax

mutual

/-- How many tokens the text of an expression has. -/
def countOf : Node → Nat
  | .unary _ operand _ => countOf operand + 2 * (decide (bindingOf operand < unaryPrecedence)).toNat + 1
  | .binary op left right _ =>
    countOf left + 2 * (decide (bindingOf left < (precedence? op).getD 0)).toNat + 1 +
      (countOf right + 2 * (decide (bindingOf right ≤ (precedence? op).getD 0)).toNat)
  | .call _ args _ => countsOf args - 1 + 3
  | _ => 1

/-- How many tokens arguments have if each has a comma behind it. -/
def countsOf : List Node → Nat
  | [] => 0
  | n :: rest => countOf n + 1 + countsOf rest

end

/-- The text is scanned as so many tokens, and starts with no blank. -/
def Weighs (text : String) (count : Nat) : Prop :=
  Opens text.toList ∧ Writes Bounded text.toList (·.length = count)

/-- The text of an expression has as many tokens as are counted. -/
def Counted (n : Node) : Prop := ∃ text, printExpr n = .ok text ∧ Weighs text (countOf n)

/-! ## Expressions in layers -/

section Layers

open Parse (layerCount)

variable {n : Node} {j k : Nat}

/-- How many tokens the text of an expression has where it stands in a layer. -/
def countAt (k : Nat) (n : Node) : Nat := countOf n + 2 * (decide (k < layerOf n)).toNat

theorem countAt_of_le (h : layerOf n ≤ k) : countAt k n = countOf n := by
  rw [countAt, decide_eq_false (Nat.not_lt.mpr h)]
  rfl

/-- Only binary operators have layers of their own. -/
theorem countAt_of_not_binary (h : ∀ op left right position, n ≠ .binary op left right position) :
    countAt k n = countOf n :=
  countAt_of_le (Nat.le_trans (Nat.le_of_eq (Nat.sub_eq_zero_of_le (tight_of_not_binary h))) (Nat.zero_le k))

theorem countOf_le_countAt : countOf n ≤ countAt k n := Nat.le_add_right _ _

/-- Parentheses are enough for every layer. -/
theorem countAt_le : countAt k n ≤ countOf n + 2 := by
  have := Bool.toNat_le (decide (k < layerOf n))
  unfold countAt
  omega

/-- In a wider layer no more parentheses are needed. -/
theorem countAt_mono (h : j ≤ k) : countAt k n ≤ countAt j n := by
  by_cases hlayer : layerOf n ≤ k
  · rw [countAt_of_le hlayer]
    exact countOf_le_countAt
  · have hj : j < layerOf n := by omega
    have hk : k < layerOf n := by omega
    rw [countAt, countAt, decide_eq_true hj, decide_eq_true hk]

section Forms

variable (position : Option Position)

theorem countAt_literal (v : Literal) : countAt k (.literal v position) = 1 := countAt_of_not_binary (by simp)

theorem countAt_identifier (name : String) : countAt k (.identifier name position) = 1 :=
  countAt_of_not_binary (by simp)

theorem countAt_call (callee : String) (args : List Node) :
    countAt k (.call callee args position) = countsOf args - 1 + 3 :=
  countAt_of_not_binary (by simp)

/-- A prefix operator stands in the lowest layer, as its operand does. -/
theorem countAt_unary (op : String) : countAt k (.unary op n position) = countAt 0 n + 1 := by
  have hparens : decide (bindingOf n < unaryPrecedence) = decide (0 < layerOf n) := by
    rw [decide_eq_decide, layerOf]
    omega
  have hcount : countAt k (.unary op n position) = countOf (.unary op n position) := countAt_of_not_binary (by simp)
  rw [hcount, countOf, hparens, countAt]

/-- The left operand stands in the layer of the operator, and the right one in the layer below. -/
theorem countOf_binary {op : String} (hk : k < layerCount) (hop : precedence? op = some (layerCount - k))
    (left right : Node) :
    countOf (.binary op left right position) = countAt (k + 1) left + 1 + countAt k right := by
  have hleft : decide (bindingOf left < layerCount - k) = decide (k + 1 < layerOf left) := by
    rw [decide_eq_decide]
    simp only [layerOf, unaryPrecedence, layerCount] at hk ⊢
    omega
  have hright : decide (bindingOf right ≤ layerCount - k) = decide (k < layerOf right) := by
    rw [decide_eq_decide]
    simp only [layerOf, unaryPrecedence, layerCount] at hk ⊢
    omega
  rw [countOf, hop, Option.getD_some, hleft, hright, countAt, countAt]

end Forms

end Layers

/-! ## Literals -/

theorem weighs_word {word : String} {c : Char} {body : List Char} (hword : word.toList = c :: body)
    (hc : Token.isWordStart c = true) (hbody : ∀ d ∈ body, Token.isWordChar d = true) : Weighs word 1 := by
  have hstart := Token.isWordChar_of_isWordStart hc
  refine ⟨⟨c, body, hword, ?_, ?_⟩, ?_⟩
  · exact Token.ne_of_isWordChar hstart (by decide)
  · exact Token.ne_of_isWordChar hstart (by decide)
  · rw [hword]
    refine (Token.writes_word hc hbody).imp ?_
    rintro _ ⟨t, rfl, -⟩
    rfl

/-- A number is one token, whether it has overflowed or not. -/
theorem weighs_num {x : Float} (h : IsRead x) : ∃ text, printLiteral (.num x) = .ok text ∧ Weighs text 1 := by
  obtain ⟨bits, hbits, rfl⟩ := h
  rcases Nat.lt_or_eq_of_le hbits with hbits | rfl
  · have hneg := Decimal.isNegative_floatOfBits hbits
    obtain ⟨whole, fraction, _, htext, hne, hw, hf, -⟩ :=
      Decimal.read?_numeral (Decimal.isFinite_floatOfBits hbits) hneg
    refine ⟨Decimal.numeral (floatOfBits false bits), by simp [printLiteral, hneg], ?_, ?_⟩
    · obtain ⟨c, whole, rfl⟩ := List.exists_cons_of_ne_nil hne
      obtain ⟨rest, hrest⟩ : ∃ rest, Decimal.plainText (c :: whole) fraction = c :: rest := by
        unfold Decimal.plainText
        split <;> exact ⟨_, rfl⟩
      refine ⟨c, rest, htext.trans hrest, ?_⟩
      exact Decimal.of_isPlainDigit (P := fun c => c ≠ ' ' ∧ c ≠ '\t') (by decide) (hw c (by simp))
    · rw [htext]
      refine (Token.writes_number hne hw hf).imp ?_
      rintro _ ⟨t, rfl, -⟩
      rfl
  · have htext : printLiteral (.num (floatOfBits false infinityBits)) = .ok "inf" := by decide +kernel
    exact ⟨"inf", htext, weighs_word rfl (by decide) (List.all_eq_true.mp (by decide))⟩

/-- Every literal of a source text is one token. -/
theorem weighs_literal {v : Literal} (h : v.Usual IsRead) : ∃ text, printLiteral v = .ok text ∧ Weighs text 1 := by
  cases h with
  | num hx => exact weighs_num hx
  | str s =>
    refine ⟨_, quoteValue_str '"' s, ?_⟩
    rw [Weighs, String.toList_ofList]
    refine ⟨⟨'"', _, rfl, by decide⟩, (Token.writes_string s.toList).anywhere.imp ?_⟩
    rintro _ ⟨t, rfl, -⟩
    rfl
  | char c =>
    refine ⟨_, quoteValue_str '\'' _, ?_⟩
    rw [Weighs, String.toList_ofList, String.toList_singleton]
    refine ⟨⟨'\'', _, rfl, by decide⟩, (Token.writes_char c).anywhere.imp ?_⟩
    rintro _ ⟨t, rfl, -⟩
    rfl
  | bool b =>
    have hword : ∀ word, word = "true" ∨ word = "false" → Weighs word 1 := by
      rintro _ (rfl | rfl) <;> exact weighs_word rfl (by decide) (List.all_eq_true.mp (by decide))
    refine ⟨if b then "true" else "false", rfl, hword _ ?_⟩
    cases b <;> simp

/-! ## Expressions -/

section Expressions

variable {position : Option Position}

theorem counted_literal {v : Literal} (h : v.Usual IsRead) : Counted (.literal v position) := weighs_literal h

theorem weighs_name {name : String} (h : IsName name) : Weighs name 1 := by
  obtain ⟨c, body, hname, hc, hbody, -⟩ := h.letters
  exact weighs_word hname hc hbody

/-- Parentheses are two tokens. -/
theorem Weighs.parenthesize {text : String} {count : Nat} (h : Weighs text count) (needed : Bool) :
    Weighs (parenthesize needed text) (count + 2 * needed.toNat) := by
  cases needed with
  | false => exact h
  | true =>
    have htext : (Syntax.parenthesize true text).toList = '(' :: (text.toList ++ [')']) := by
      simp [Syntax.parenthesize, String.toList_append]
    rw [Weighs, htext]
    refine ⟨⟨'(', _, rfl, by decide⟩, h.2.parens.anywhere.imp ?_⟩
    rintro _ ⟨lp, us, rp, rfl, -, hus, -⟩
    simp [hus]

theorem counted_unary {op : String} {operand : Node} (hop : op = "!" ∨ op = "~") (h : Counted operand) :
    Counted (.unary op operand position) := by
  obtain ⟨text, htext, hweighs⟩ := h
  refine ⟨op ++ parenthesize (bindingOf operand < unaryPrecedence) text, by simp [printExpr, htext], ?_⟩
  have hoperand := hweighs.parenthesize (bindingOf operand < unaryPrecedence)
  rw [Weighs, String.toList_append]
  have hopens : Opens op.toList := by
    rcases hop with rfl | rfl <;> exact ⟨_, _, rfl, by decide⟩
  refine ⟨hopens.append _, ((Token.writes_unaryOp hop).append hoperand.2 fun _ _ => trivial).imp ?_⟩
  rintro _ ⟨_, us, rfl, ⟨t, rfl, -⟩, hus⟩
  simp [hus, countOf]

theorem counted_binary {op : String} {level : Nat} {left right : Node} (hop : precedence? op = some level)
    (hl : Counted left) (hr : Counted right) : Counted (.binary op left right position) := by
  obtain ⟨-, -, hspaced, hterminal⟩ := precedence_cases hop
  obtain ⟨leftText, hleft, hweighsl⟩ := hl
  obtain ⟨rightText, hright, hweighsr⟩ := hr
  have hl := hweighsl.parenthesize (bindingOf left < level)
  have hr := hweighsr.parenthesize (bindingOf right ≤ level)
  have hprint : printExpr (.binary op left right position) = .ok (parenthesize (bindingOf left < level) leftText ++
      " " ++ op ++ " " ++ parenthesize (bindingOf right ≤ level) rightText) := by
    simp only [printExpr, hop, hleft, hright, Success.ok_bind, Success.pure_eq]
  refine ⟨_, hprint, ?_⟩
  have htext : (parenthesize (bindingOf left < level) leftText ++ " " ++ op ++ " " ++
      parenthesize (bindingOf right ≤ level) rightText).toList =
      (parenthesize (bindingOf left < level) leftText).toList ++
        (' ' :: (op.toList ++ [' ']) ++ (parenthesize (bindingOf right ≤ level) rightText).toList) := by
    simp [String.toList_append]
  rw [Weighs, htext]
  have hright := (Token.writes_spacedOp _ _ hspaced hterminal).append hr.2 fun _ _ => trivial
  refine ⟨hl.1.append _, (hl.2.append hright fun _ _ => bounded_space _).imp ?_⟩
  rintro _ ⟨ls, _, rfl, hls, _, rs, rfl, ⟨t, rfl, -⟩, hrs⟩
  simp only [List.length_append, List.length_singleton, hls, hrs, countOf, hop, Option.getD_some]
  omega

/-- Between arguments there is one comma less than there are arguments. -/
theorem Commas.length {args : List Node} {ts : List Token}
    (h : Commas (fun arg ts => ts.length = countOf arg) args ts) : ts.length = countsOf args - 1 := by
  induction h with
  | nil => rfl
  | one h => simp [h, countsOf]
  | more h _ _ ih =>
    rw [List.length_append, List.length_cons, ih, h]
    simp only [countsOf]
    omega

theorem printExprs_weighs {args : List Node} (h : ∀ arg ∈ args, Counted arg) :
    ∃ texts, printExprs args = .ok texts ∧
      Writes Bounded (", ".intercalate texts).toList (·.length = countsOf args - 1) := by
  suffices ∃ texts, printExprs args = .ok texts ∧
      List.Forall₂ (fun arg text => Writes Bounded text.toList (·.length = countOf arg)) args texts by
    obtain ⟨texts, htexts, hwrites⟩ := this
    exact ⟨texts, htexts, (writes_commas hwrites).imp fun _ => Commas.length⟩
  induction args with
  | nil => exact ⟨[], rfl, .nil⟩
  | cons arg args ih =>
    obtain ⟨text, htext, hweighs⟩ := h arg (by simp)
    obtain ⟨texts, htexts, hmore⟩ := ih fun arg harg => h arg (List.mem_cons_of_mem _ harg)
    exact ⟨text :: texts, by simp [printExprs, htext, htexts], .cons hweighs.2 hmore⟩

theorem counted_call {callee : String} {args : List Node} (hn : IsName callee) (h : ∀ arg ∈ args, Counted arg) :
    Counted (.call callee args position) := by
  obtain ⟨texts, htexts, hwrites⟩ := printExprs_weighs h
  have hprint : printExpr (.call callee args position) = .ok (callee ++ "(" ++ ", ".intercalate texts ++ ")") := by
    simp only [printExpr, htexts, Success.ok_bind, Success.pure_eq]
  have htext : (callee ++ "(" ++ ", ".intercalate texts ++ ")").toList =
      callee.toList ++ '(' :: ((", ".intercalate texts).toList ++ [')']) := by
    simp [String.toList_append]
  have hname := weighs_name hn
  refine ⟨_, hprint, ?_⟩
  rw [Weighs, htext]
  refine ⟨hname.1.append _, (hname.2.append hwrites.parens.anywhere fun _ _ => ?_).imp ?_⟩
  · exact Token.bounded_of_head (by decide)
  · rintro _ ⟨ns, _, rfl, hns, lp, us, rp, rfl, -, hus, -⟩
    simp only [List.length_append, List.length_cons, List.length_nil, hns, hus, countOf]
    omega

end Expressions

/-- The text of an expression in its place has as many tokens as are counted. -/
theorem counted_of_placed {n : Node} (h : Placed (Literal.Usual IsRead) IsName .expression n) : Counted n := by
  generalize hplace : Place.expression = place at h
  induction h with
  | literal hv => exact counted_literal hv
  | identifier hn => exact ⟨_, rfl, weighs_name hn⟩
  | unary hop _ ih => exact counted_unary hop (ih rfl)
  | binary hop _ _ ihl ihr => exact counted_binary hop (ihl rfl) (ihr rfl)
  | call hn _ ih => exact counted_call hn fun arg harg => ih arg harg rfl
  | _ => cases hplace

/-! ## A text of one line -/

/-- The tokens of a text without a line break are those of its one line and the two at its end. -/
theorem tokenize_line {text : String} {P : List Token → Prop} (hw : Writes Bounded text.toList P)
    (ho : Opens text.toList) :
    ∃ ts eol last, tokenize text = .ok (ts ++ [eol, last]) ∧ P ts ∧ eol.Stands .newline ∧ last.Stands .finish := by
  obtain ⟨marks, ts, eol, l, hline, hmarks, hts, heol, hl⟩ :=
    line_writes hw ho (⟨rfl, rfl⟩ : AtLevel .start 0) (Nat.zero_le 1) 1
  obtain rfl : marks = [] := by
    cases hmarks with
    | deeper hlevel => omega
    | back _ hlen => exact List.length_eq_zero_iff.mp hlen
  have hsplit := Token.splitLines_of_unbroken hw.neat.1
  refine ⟨ts, eol, l.mark .eof 1 (text.toList.length + 1), ?_, hts, heol, (stands_mark l _ _).2.2.2⟩
  have hlines : Token.Layout.start.lines 1 [text.toList] = .ok (ts ++ [eol], l) := by
    rw [Token.Layout.lines, show text.toList = (pad 0).toList ++ text.toList from rfl, hline]
    simp [Token.Layout.lines]
  refine Token.tokenize_ok_iff.mpr ⟨_, _, hsplit ▸ hlines, ?_⟩
  simp [hsplit, Token.Layout.finish, hl.depth, hl.indents, levels]

end TillLang.Print
