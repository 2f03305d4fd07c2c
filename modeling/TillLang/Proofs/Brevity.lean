/-
  TillLang.Proofs.Brevity — no expression can be written with fewer tokens than it is printed with.

  Tokens are a way of writing an expression if the descent takes all of them, whatever else follows, and returns an
  expression equal to it (`Denotes`). The text of an expression that occurs in a parsed program is one, unless a number
  in it has overflowed, and in no case is there a shorter one: so all the parentheses in it are needed
  (`printed_expressions_are_shortest`). The tokens of the text are counted by `Print.countOf`, which is also the least
  that the descent takes for the expression, and equal expressions have the same count (`countAt_of_same`).
-/

import TillLang.Proofs.Parse.Complete
import TillLang.Proofs.Parse.Consumed
import TillLang.Proofs.RoundTrip
import TillLang.Proofs.Token.Places

namespace TillLang

open Decimal (IsFinite)
open Syntax (printExpr printExpression sameTo)

/-! ## The expressions of a tree -/

namespace Node

mutual

/-- The expressions that occur in a tree. -/
def expressions : Node → List Node
  | .absent | .param .. => []
  | .literal value p => [.literal value p]
  | .identifier name p => [.identifier name p]
  | .unary op operand p => .unary op operand p :: operand.expressions
  | .binary op left right p => .binary op left right p :: (left.expressions ++ right.expressions)
  | .call callee args p => .call callee args p :: expressionsIn args
  | .program nodes _ | .block nodes _ => expressionsIn nodes
  | .varDecl _ _ value _ | .assignment _ value _ | .returnStmt value _ | .display value _ => value.expressions
  | .function _ params _ body _ => expressionsIn params ++ body.expressions
  | .ifStmt condition body _ | .whileStmt condition body _ => condition.expressions ++ body.expressions

/-- The expressions that occur in several trees. -/
def expressionsIn : List Node → List Node
  | [] => []
  | n :: rest => n.expressions ++ expressionsIn rest

end

theorem mem_expressionsIn {e : Node} {ns : List Node} : e ∈ expressionsIn ns ↔ ∃ n ∈ ns, e ∈ n.expressions := by
  induction ns with
  | nil => simp [expressionsIn]
  | cons n ns ih => simp [expressionsIn, ih]

end Node

/-- The expressions of a tree in its place are in their places. -/
theorem Placed.expressions {lit : Literal → Prop} {word : String → Prop} {place : Place} {n e : Node}
    (h : Placed lit word place n) (he : e ∈ n.expressions) : Placed lit word .expression e := by
  induction h with
  | literal hv =>
    obtain rfl := List.mem_singleton.mp he
    exact .literal hv
  | identifier hn =>
    obtain rfl := List.mem_singleton.mp he
    exact .identifier hn
  | unary hop h ih =>
    rcases List.mem_cons.mp he with rfl | he
    · exact .unary hop h
    · exact ih he
  | binary hop hl hr ihl ihr =>
    rcases List.mem_cons.mp he with rfl | he
    · exact .binary hop hl hr
    · exact (List.mem_append.mp he).elim ihl ihr
  | call hn ha ih =>
    rcases List.mem_cons.mp he with rfl | he
    · exact .call hn ha
    · obtain ⟨arg, harg, he⟩ := Node.mem_expressionsIn.mp he
      exact ih arg harg he
  | param | varDecl | returnPlain => cases he
  | varInit _ _ _ ih | assignment _ _ ih | returnValue _ ih | display _ ih => exact ih he
  | ifStmt _ _ ihc ihb | whileStmt _ _ ihc ihb => exact (List.mem_append.mp he).elim ihc ihb
  | function _ _ _ _ ihp ihb =>
    rcases List.mem_append.mp he with he | he
    · obtain ⟨param, hparam, he⟩ := Node.mem_expressionsIn.mp he
      exact ihp param hparam he
    · exact ihb he
  | block _ _ ih =>
    obtain ⟨s, hs, he⟩ := Node.mem_expressionsIn.mp he
    exact ih s hs he

/-! ## Equal expressions -/

namespace Syntax

theorem Comparison.andThen_iff {a : Comparison} {b : Unit → Comparison} :
    a.andThen b = some true ↔ a = some true ∧ b () = some true := by
  unfold Comparison.andThen
  split
  · simp
  · rename_i hne
    constructor
    · exact fun h => absurd h (by simpa using hne)
    · exact fun h => h.1

end Syntax

namespace Print

open Parse (layerCount)
open Syntax

/-- No expression needs parentheses outside all layers. -/
theorem countAt_outermost (n : Node) : countAt unaryPrecedence n = countOf n := countAt_of_le (Nat.sub_le _ _)

theorem countsOf_of_same {same : Node → Node → Comparison} {as bs : List Node}
    (h : ∀ a ∈ as, ∀ b, same a b = some true → countOf a = countOf b) (hsame : sameNodes same as bs = some true) :
    countsOf as = countsOf bs := by
  unfold sameNodes at hsame
  split at hsame
  · rename_i hlen
    induction as generalizing bs with
    | nil =>
      obtain rfl := List.length_eq_zero_iff.mp hlen.symm
      rfl
    | cons a as ih =>
      cases bs with
      | nil => cases hlen
      | cons b bs =>
        obtain ⟨ha, has⟩ := List.forall_mem_cons.mp h
        obtain ⟨hab, hrest⟩ := Comparison.andThen_iff.mp hsame
        rw [countsOf, countsOf, ha b hab, ih has (Nat.succ.inj hlen) hrest]
  · cases hsame

/-- Equal expressions have the same count in every layer. -/
theorem countAt_of_same {lit : Literal → Prop} {word : String → Prop} {place : Place} {a b : Node} {limit : Nat}
    (h : Placed lit word place a) (hplace : place = .expression) (hsame : sameTo limit a b = some true) (k : Nat) :
    countAt k a = countAt k b := by
  induction h generalizing b limit k with
  | literal hv =>
    cases limit <;> cases b <;> simp [sameTo] at hsame
    rw [countAt_literal, countAt_literal]
  | identifier hn =>
    cases limit <;> cases b <;> simp [sameTo] at hsame
    rw [countAt_identifier, countAt_identifier]
  | unary hop _ ih =>
    cases limit <;> cases b <;> simp [sameTo] at hsame
    rw [countAt_unary, countAt_unary, ih rfl (Comparison.andThen_iff.mp hsame).2 0]
  | @binary op level left right p hop _ _ ihl ihr =>
    cases limit <;> cases b <;> simp [sameTo, Comparison.andThen_iff] at hsame
    rename_i limit op' left' right' p'
    obtain ⟨rfl, hleft, hright⟩ := hsame
    obtain ⟨hpos, hle, -⟩ := precedence_cases hop
    obtain ⟨j, hj, rfl⟩ : ∃ j, j < layerCount ∧ level = layerCount - j := ⟨layerCount - level, by omega, by omega⟩
    have hlayer : layerOf (.binary op left right p) = layerOf (.binary op left' right' p') := by
      rw [layerOf_binary hj hop, layerOf_binary hj hop]
    rw [countAt, countAt, hlayer, countOf_binary p hj hop, countOf_binary p' hj hop, ihl rfl hleft, ihr rfl hright]
  | call hn _ ih =>
    cases limit <;> cases b <;> simp [sameTo, Comparison.andThen_iff] at hsame
    have hargs := countsOf_of_same (fun arg harg b hb => ?_) hsame.2
    · rw [countAt_call, countAt_call, hargs]
    · rw [← countAt_outermost arg, ← countAt_outermost b, ih arg harg rfl hb]
  | _ => cases hplace

/-- The tokens of a text of one line are those of the line, but for the two at its end. -/
theorem ordinary_line {ts : List Token} {eol last : Token} (heol : eol.Stands .newline) (hlast : last.Stands .finish) :
    Token.ordinary (ts ++ [eol, last]) = Token.ordinary ts := by
  have hends : Token.ordinary [eol, last] = [] := by
    simp [Token.ordinary, heol.kind rfl, hlast.kind rfl, Token.Kind.isOrdinary]
  rw [Token.ordinary_append, hends, List.append_nil]

end Print

/-! ## Ways of writing an expression -/

namespace Parse

/-- Tokens are a way of writing an expression: with any tokens behind them that end with the end of the text, the
descent takes all of them and no more, and returns an expression that is equal to it up to positions. -/
def Denotes (ts : List Token) (e : Node) : Prop :=
  ∃ depth limit c after e', c.tokens = ts ++ after.tokens ∧ after.Ends ∧
    expression depth c = .ok (e', after) ∧ sameTo limit e e' = some true

theorem Cursor.Ends.append {c after : Cursor} {ts : List Token} (h : after.Ends)
    (hc : c.tokens = ts ++ after.tokens) : c.Ends := by
  obtain ⟨last, hlast, heof⟩ := h
  refine ⟨last, ?_, heof⟩
  rw [hc, List.getLast?_append, hlast]
  rfl

/-- No way of writing an expression has fewer tokens than are counted. -/
theorem Denotes.count_le {lit : Literal → Prop} {word : String → Prop} {ts : List Token} {e : Node}
    (h : Denotes ts e) (he : Placed lit word .expression e) : Print.countOf e ≤ ts.length := by
  obtain ⟨depth, limit, c, after, e', hc, hends, hread, hsame⟩ := h
  have hcost := (expression_consumes depth c e' after (hends.append hc) hread).2
  have hcount : Print.countOf e = Print.countOf e' := by
    rw [← Print.countAt_outermost e, ← Print.countAt_outermost e', Print.countAt_of_same he rfl hsame]
  rw [hc, List.length_append] at hcost
  omega

end Parse

open Parse (Denotes)

/-- The text of an expression whose numbers are finite is a way of writing it. -/
theorem denotes_printed {e : Node} (h : Placed (Literal.Usual Writable) Token.IsName .expression e) {text : String}
    {tokens : List Token} (htext : printExpr e = .ok text) (hopens : Print.Opens text.toList)
    (htokens : tokenize text = .ok tokens) : Denotes (Token.ordinary tokens) e := by
  have hlegible : ∀ v : Literal, v.Usual Writable → Print.Legible Literal.settled v :=
    fun v hv => Print.legible_of_usual (fun _ => Writable.legible) hv
  have hprinted : Print.Printed Literal.settled e := Print.printedAs_of_placed hlegible h
  obtain ⟨text', htext', hwrites⟩ := hprinted.whole
  obtain rfl : text' = text := Except.ok.inj (htext'.symm.trans htext)
  obtain ⟨ts, eol, last, htokens', ⟨e', hspells, hbare⟩, heol, hlast⟩ := Print.tokenize_line hwrites hopens
  obtain rfl : tokens = ts ++ [eol, last] := Except.ok.inj (htokens.symm.trans htokens')
  obtain ⟨c, hc⟩ := Parse.exists_cursor ts ⟨eol, [last]⟩
  have hstream : Token.Stream c.tokens := hc ▸ Token.tokenize_stream htokens
  have hread := hspells.reads.expression hstream hc (Parse.stops_newline heol _)
  have hsame : sameTo e.height e e' = some true := by
    refine Syntax.same_of_bare (fun v w hv hvw => ?_) h hbare.symm (Nat.le_refl _)
    exact Print.sameLiteral_of_settled (hv.mono fun _ _ hx => hx.1) hvw
  have hordinary : Token.ordinary (ts ++ [eol, last]) = ts := by
    rw [Print.ordinary_line heol hlast, Token.ordinary_eq_self (hspells.isOrdinary trivial)]
  rw [hordinary]
  exact ⟨_, _, c, ⟨eol, [last]⟩, e', hc, ⟨last, rfl, hlast.kind rfl⟩, hread, hsame⟩

/-- What is printed for an expression that occurs in a parsed program has the fewest tokens of all ways of writing the
expression, and is one of them if no number in it has overflowed: every parenthesis in it is needed. -/
theorem printed_expressions_are_shortest {frontend : Frontend} {depth : Nat} {source : String} {p e : Node}
    (h : parseTo frontend depth source = .ok p) (he : e ∈ p.expressions) :
    ∃ text tokens, printExpr e = .ok text ∧ (e.height ≤ Node.nestingLimit → printExpression e = .ok text) ∧
      tokenize text = .ok tokens ∧
      (∀ ts, Denotes ts e → (Token.ordinary tokens).length ≤ ts.length) ∧
      ((∀ x, Literal.num x ∈ e.literals → IsFinite x) → Denotes (Token.ordinary tokens) e) := by
  obtain ⟨body, rfl, hbody⟩ := placed_of_parseTo h
  obtain ⟨n, hn, he⟩ := Node.mem_expressionsIn.mp he
  have hplaced := (hbody n hn).expressions he
  obtain ⟨text, htext, hopens, hwrites⟩ := Print.counted_of_placed hplaced
  obtain ⟨ts, eol, last, htokens, hcount, heol, hlast⟩ := Print.tokenize_line hwrites hopens
  refine ⟨text, ts ++ [eol, last], htext, fun hheight => ?_, htokens, fun us hus => ?_, fun hfinite => ?_⟩
  · rw [printExpression, if_neg (Nat.not_lt.mpr hheight), htext]
  · rw [Print.ordinary_line heol hlast]
    calc (Token.ordinary ts).length ≤ ts.length := List.length_filter_le _ _
      _ = Print.countOf e := hcount
      _ ≤ us.length := hus.count_le hplaced
  · refine denotes_printed ?_ htext hopens htokens
    have hnums : ∀ v ∈ e.literals, ∀ x, v = .num x → IsFinite x := by
      rintro _ hv x rfl
      exact hfinite x hv
    refine (hplaced.and_literals hnums).mono (fun v hv => ?_) fun _ => id
    exact (Literal.Usual.finite hv).mono fun _ _ => Writable.of_isRead

/-- A text with four pairs of parentheses, of which one is needed. -/
def crowdedSource : String := "display ((a) - ((b) - c))\n"

/-- The expression in it, with the columns of its names and operators. -/
def crowdedTree (a minus b less c : Nat) : Node :=
  let place (column : Nat) := some (Location.position ⟨1, column⟩)
  .binary "-" (.identifier "a" (place a))
    (.binary "-" (.identifier "b" (place b)) (.identifier "c" (place c)) (place less)) (place minus)

/-- Tokens for the same expression with one more pair. -/
def crowdedTokens : List Token :=
  ["(", "(", "a", ")", "-", "(", "(", "b", ")", "-", "(", "c", ")", ")", ")"].map fun lexeme =>
    ⟨if lexeme ∈ ["a", "b", "c"] then .name else .op, lexeme, 1, 1, 0⟩

theorem crowdedTokens_denote : Denotes crowdedTokens (crowdedTree 11 14 18 21 23) := by
  let last : Token := ⟨.eof, "", 1, 1, 0⟩
  refine ⟨9, 9, ⟨⟨.op, "(", 1, 1, 0⟩, crowdedTokens.tail ++ [last]⟩, ⟨last, []⟩, crowdedTree 1 1 1 1 1, rfl, ?_, ?_, ?_⟩
  · exact ⟨last, rfl, rfl⟩
  · cbv
  · cbv

theorem crowdedSource_shortened :
    parseTo .descent 9 crowdedSource = .ok (.program [.display (crowdedTree 11 14 18 21 23)
      (some (Location.position ⟨1, 1⟩))] Parse.programPosition) ∧
    ∃ tokens, printExpr (crowdedTree 11 14 18 21 23) = .ok "a - (b - c)" ∧ tokenize "a - (b - c)" = .ok tokens ∧
      (Token.ordinary tokens).length ≤ crowdedTokens.length ∧
      Denotes (Token.ordinary tokens) (crowdedTree 11 14 18 21 23) := by
  have hparse : parseTo .descent 9 crowdedSource = .ok (.program [.display (crowdedTree 11 14 18 21 23)
      (some (Location.position ⟨1, 1⟩))] Parse.programPosition) := by cbv
  have htext : printExpr (crowdedTree 11 14 18 21 23) = .ok "a - (b - c)" := by decide +kernel
  obtain ⟨text, tokens, htext', -, htokens, hleast, hdenotes⟩ := printed_expressions_are_shortest hparse (.head _)
  obtain rfl : text = "a - (b - c)" := Except.ok.inj (htext'.symm.trans htext)
  refine ⟨hparse, tokens, htext, htokens, hleast _ crowdedTokens_denote, hdenotes fun x hx => ?_⟩
  cases hx

end TillLang
