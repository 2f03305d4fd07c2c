/-
  TillLang.Proofs.Formatting — formatting keeps the behaviour of a program.

  The text that a compiled program is formatted to compiles as well, and the two programs run alike:
  they display the same texts and end the same way, up to positions (`formatting_keeps_behaviour`).
  The program read from the text differs from the formatted one in positions only, since a number that
  was read is written so that it is read as the same double; and what nests in the text nested in the
  source, so the text is not too deep to be parsed.

  Numbers that are too large for a double are the exception: they are read as the infinity, and `inf`,
  its text, is read as a name (`overflowing_number_lost`).
-/

import TillLang.Proofs.Eval.Unplaced
import TillLang.Proofs.RoundTrip

namespace TillLang

open Decimal (IsFinite infinityBits floatOfBits nearest ofDigits plainValue)
open Eval (Settings World Stop runTo unplacedEnd)
open Node (heights bares nestingLimit)
open Parse (programPosition)
open Syntax (printBody)

/-- A number that was read and did not overflow is read as itself from its text. -/
theorem legible_of_isRead {x : Float} (h : Token.IsRead x ∧ IsFinite x) : Print.Legible id (.num x) := by
  have hwritable := Writable.of_isRead h
  obtain ⟨bits, hbits, rfl⟩ := h.1.of_isFinite h.2
  exact Print.legible_num hwritable.1 hwritable.2 fun hzero => absurd hzero (Print.ne_negativeZero hbits)

/-- The text of a program that was parsed from another text is parsed at the same depth, as a program that differs in
positions only. -/
theorem printed_parses_alike {depth : Nat} {source : String} {p : Node} (h : parseTo .descent depth source = .ok p)
    (hfinite : ∀ x, Literal.num x ∈ p.literals → IsFinite x) :
    ∃ body text q, p.programBody = .ok body ∧ printBody body = .ok text ∧ parseTo .descent depth text = .ok q ∧
      q.bare id = p.bare id := by
  obtain ⟨tokens, htokens, hs⟩ := parseTo_ok h
  obtain ⟨body, rfl, hspells⟩ := (Parse.programTo_iff hs).mp ((parseTo_descent htokens).mp h)
  have hplaced := placed_of_finite (hspells.placed (Token.supplies_of_tokenize htokens)) hfinite
  have hlegible : ∀ v : Literal, v.Usual (fun x => Token.IsRead x ∧ IsFinite x) → Print.Legible id v :=
    fun v hv => Print.legible_of_usual (fun _ => legible_of_isRead) hv
  obtain ⟨text, body', htext, heq, hparse⟩ := printBody_parses hlegible hplaced
  refine ⟨body, text, .program body' programPosition, rfl, htext, hparse depth ?_, ?_⟩
  · obtain ⟨ts, last, -, -, ⟨-, rfl⟩ | hbody⟩ := hspells
    · exact Nat.zero_le _
    · exact Print.depthsOf_le hbody
  · rw [Node.bare, Node.bare, heq]

theorem parseSource_descent (source : String) : parseSource "descent" source = parseTo .descent nestingLimit source :=
  rfl

theorem compile_ok_iff {frontend source : String} {p : Node} :
    compile frontend source = .ok p ↔ parseSource frontend source = .ok p ∧ checkProgram p = .ok () := by
  simp only [compile, Success.bind_iff, Success.pure_eq, Except.ok.injEq]
  constructor
  · rintro ⟨q, hq, ⟨⟩, hcheck, rfl⟩
    exact ⟨hq, hcheck⟩
  · rintro ⟨hp, hcheck⟩
    exact ⟨p, hp, (), hcheck, rfl⟩

theorem heights_of_programBody {p : Node} {body : List Node} (h : p.programBody = .ok body) {limit : Nat}
    (hlimit : p.height ≤ limit) : heights body ≤ limit := by
  cases p <;> cases h
  exact Nat.le_of_succ_le hlimit

/-- A compiled program whose numbers did not overflow is formatted to a text that compiles too, and running that text
displays the same texts and ends the same way, up to positions. -/
theorem formatting_keeps_behaviour {source : String} {p : Node} (h : compile "descent" source = .ok p)
    (hfinite : ∀ x, Literal.num x ∈ p.literals → IsFinite x) :
    ∃ body text q, p.programBody = .ok body ∧ printBody body = .ok text ∧
      (heights body ≤ nestingLimit → format p = .ok text) ∧ compile "descent" text = .ok q ∧
      ∀ (settings : Settings) (limit : Nat),
        (runTo settings limit q World.start).2.displayed = (runTo settings limit p World.start).2.displayed ∧
        (runTo settings limit q World.start).1.mapError Stop.unplaced =
          (runTo settings limit p World.start).1.mapError Stop.unplaced := by
  obtain ⟨hparse, hcheck⟩ := compile_ok_iff.mp h
  rw [parseSource_descent] at hparse
  obtain ⟨body, text, q, hbody, htext, hq, heq⟩ := printed_parses_alike hparse hfinite
  refine ⟨body, text, q, hbody, htext, format_of_printBody hbody htext, ?_, fun settings limit => ?_⟩
  · exact compile_ok_iff.mpr ⟨hq, checkProgram_of_bare heq.symm hcheck⟩
  · have hruns := Eval.runTo_of_bare heq settings limit World.start
    simp only [unplacedEnd, id_map, Prod.mk.injEq] at hruns
    have hdisplayed := congrArg World.displayed hruns.2
    exact ⟨hdisplayed, hruns.1⟩

theorem awkwardSource_formatted : ∃ p, compile "descent" awkwardSource = .ok p ∧
    (∀ x, Literal.num x ∈ p.literals → IsFinite x) ∧ ∃ text q, format p = .ok text ∧ compile "descent" text = .ok q ∧
      ∀ (settings : Settings) (limit : Nat),
        (runTo settings limit q World.start).2.displayed = (runTo settings limit p World.start).2.displayed ∧
        (runTo settings limit q World.start).1.mapError Stop.unplaced =
          (runTo settings limit p World.start).1.mapError Stop.unplaced := by
  have hgood : (match compile "descent" awkwardSource with
      | .ok p => p.literals.all Literal.withinRange && decide (p.height ≤ nestingLimit)
      | .error _ => false) = true := by decide +kernel
  cases hp : compile "descent" awkwardSource with
  | error e => simp [hp] at hgood
  | ok p =>
    rw [hp] at hgood
    obtain ⟨hrange, hheight⟩ := Bool.and_eq_true_iff.mp hgood
    have hfinite : ∀ x, Literal.num x ∈ p.literals → IsFinite x := fun x hx =>
      Decimal.isFinite_iff.mpr (of_decide_eq_true (List.all_eq_true.mp hrange _ hx))
    obtain ⟨body, text, q, hbody, -, hformat, hq, hruns⟩ := formatting_keeps_behaviour hp hfinite
    exact ⟨p, rfl, hfinite, text, q, hformat (heights_of_programBody hbody (of_decide_eq_true hheight)), hq, hruns⟩

/-! ## Numbers that are too large -/

/-- A program that displays a number of plain digits is parsed as that. -/
theorem parseTo_display {digits : List Char} (hne : digits ≠ []) (hdigits : ∀ c ∈ digits, Token.isDigit c = true) :
    ∃ place place', parseTo .descent nestingLimit ("display " ++ String.ofList digits ++ "\n") =
      .ok (.program [.display (.literal (.num (nearest false ⟨ofDigits (digits.map plainValue), 0⟩)) place) place']
        programPosition) := by
  have hnumber : Token.Writes Token.Bounded (String.ofList digits).toList (Token.One .number digits) := by
    rw [String.toList_ofList]
    exact @Token.writes_number digits [] hne hdigits nofun
  obtain ⟨hopens, hwrites⟩ := Print.writes_after "display" .kwDisplay (by decide) hnumber
  obtain ⟨ts, last, htokens, hts, hlast⟩ := Print.tokenize_lays (Print.lays_line hwrites hopens)
  obtain ⟨_, eol, rfl, ⟨kw, _, rfl, hkw, t, rfl, hkind, hlexeme⟩, heol⟩ := hts
  have hsource : Text.joinLines [Syntax.pad 0 ++ ("display" ++ " " ++ String.ofList digits)] =
      "display " ++ String.ofList digits ++ "\n" := by
    simp [← String.toList_inj, Print.toList_pad, String.toList_append, Text.joinLines]
  have hvalue : Parse.literalOf? t = some (.ok (.num (nearest false ⟨ofDigits (digits.map plainValue), 0⟩))) := by
    have hread := @Decimal.read?_plain digits [] hne hdigits nofun
    simp only [Decimal.plainText, List.isEmpty_nil, if_true, List.append_nil, List.length_nil, Int.natCast_zero,
      neg_zero] at hread
    simp only [Parse.literalOf?, hkind, Parse.numberOf, hlexeme, hread]
  generalize nearest false _ = x at hvalue ⊢
  have hlayers : ∀ k ≤ Parse.layerCount, Parse.Spells 1 (.layer k) [t] [.literal (.num x) t.place] := by
    intro k hk
    induction k with
    | zero => exact .literal hvalue
    | succ k ih => exact .lift hk (ih (Nat.le_of_lt hk))
  have hspells : Parse.SpellsProgram 2 (kw :: [t] ++ [eol] ++ [last]) [.display (.literal (.num x) t.place) kw.place] :=
    ⟨_, last, rfl, hlast, .inr (.one (.display hkw (hlayers _ (Nat.le_refl _)) heol))⟩
  rw [hsource] at htokens
  refine ⟨t.place, kw.place, (parseTo_descent htokens).mpr ?_⟩
  exact (Parse.programTo_iff (Token.tokenize_stream htokens)).mpr ⟨_, rfl, hspells.mono (by decide)⟩

/-- A number that overflowed is formatted as a name, which nothing declares. -/
theorem format_overflowed {digits : List Char} (hne : digits ≠ []) (hdigits : ∀ c ∈ digits, Token.isDigit c = true)
    (hlarge : nearest false ⟨ofDigits (digits.map plainValue), 0⟩ = floatOfBits false infinityBits) :
    (∃ p, compile "descent" ("display " ++ String.ofList digits ++ "\n") = .ok p ∧ format p = .ok "display inf\n") ∧
      ∀ q, compile "descent" "display inf\n" ≠ .ok q := by
  obtain ⟨place, place', hparse⟩ := parseTo_display hne hdigits
  rw [hlarge] at hparse
  refine ⟨⟨_, compile_ok_iff.mpr ⟨hparse, rfl⟩, ?_⟩, fun q hq => ?_⟩
  · have htext : Syntax.printLiteral (.num (floatOfBits false infinityBits)) = .ok "inf" := by decide +kernel
    simp only [format, Syntax.printProgram, Node.programBody, heights, Node.height, printBody, Syntax.printStatements,
      Syntax.printStatement, Syntax.printExpr, htext]
    rfl
  · have hrefused : (compile "descent" "display inf\n").isOk = false := by decide +kernel
    rw [hq] at hrefused
    cases hrefused

/-- The digits of a number that is too large for a double. -/
def overflowingDigits : List Char := '1' :: List.replicate 309 '0'

theorem overflowing_number_lost :
    (∃ p, compile "descent" ("display " ++ String.ofList overflowingDigits ++ "\n") = .ok p ∧
      format p = .ok "display inf\n") ∧ ∀ q, compile "descent" "display inf\n" ≠ .ok q := by
  refine format_overflowed nofun (fun c hc => ?_) ?_
  · rcases List.mem_cons.mp hc with rfl | hc
    · rfl
    · rw [List.eq_of_mem_replicate hc]
      rfl
  · unfold nearest
    refine congrArg (floatOfBits false) ?_
    decide +kernel

end TillLang
