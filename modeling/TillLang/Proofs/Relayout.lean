/-
  TillLang.Proofs.Relayout — the layout of a text does not matter.

  Carriage returns in front of line breaks, blank lines, and line breaks inside parentheses are
  layout: a text without them has tokens that say the same, and is parsed to the same program up to
  positions (`layout_does_not_matter`). The lexer's half is told from the tokens of each line, the
  parser's half from the fact that it reads kinds and texts of tokens only.
-/

import TillLang.Proofs.Parse.Relocated
import TillLang.Proofs.Token.Relaid

namespace TillLang

open Token (Layout contents spot splitLines isBlankLine lastLine firstLine ofLines withReturns)
open Node (nestingLimit)

/-- Whatever program the first text is parsed to, the second one is parsed to as well, up to positions. -/
def ParsedAlike (source source' : String) : Prop :=
  ∀ depth p, parseTo .descent depth source = .ok p → ∃ q, parseTo .descent depth source' = .ok q ∧ q.bare id = p.bare id

theorem parsedAlike_of_contents {source source' : String} (h : contents source' = contents source) :
    ParsedAlike source source' := by
  intro depth p hp
  obtain ⟨ts, hts, -⟩ := parseTo_ok hp
  obtain ⟨us, hus, halike⟩ := Token.contents_iff.mp (h.trans (Token.contents_of_ok hts))
  exact parseTo_relocated hts hus halike hp

theorem contents_of_spots {source source' : String}
    (h : List.map spot <$> tokenize source' = List.map spot <$> tokenize source) :
    contents source' = contents source := by
  have hcontent : ∀ ts : List Token, ts.map Token.content = (ts.map spot).map fun s => (s.1, s.2.1) := fun ts => by
    rw [List.map_map]
    rfl
  unfold contents
  cases hs : tokenize source <;> cases hs' : tokenize source' <;> rw [hs, hs'] at h
  · rfl
  · cases h
  · cases h
  · simp only [Except.toOption, Option.map_some, hcontent, Except.ok.inj h]

/-- A text without carriage returns has the same tokens at the same places, or the same fault, when one is put in front
of every line break. When a blank line is put among its lines it has tokens that say the same, if it has any, and else
none; and so it has when a line break inside parentheses, between lines that are not blank, is replaced by a space. The
program it is parsed to does not change with any of this, up to positions. -/
theorem layout_does_not_matter {source : String} (hreturn : '\r' ∉ source.toList) :
    (List.map spot <$> tokenize (withReturns source) = List.map spot <$> tokenize source ∧
      ParsedAlike source (withReturns source)) ∧
    (∀ above below blank, splitLines source.toList = above ++ below → isBlankLine blank = true →
      contents (ofLines (above ++ blank :: below)) = contents source ∧
      ParsedAlike source (ofLines (above ++ blank :: below))) ∧
    ∀ a b us l, source.toList = a ++ '\n' :: b → Layout.start.lines 1 (splitLines a) = .ok (us, l) → 0 < l.depth →
      isBlankLine (lastLine a) = false → isBlankLine (firstLine b) = false → ∀ ts, tokenize source = .ok ts →
      contents (String.ofList (a ++ ' ' :: b)) = some (ts.map Token.content) ∧
      ParsedAlike source (String.ofList (a ++ ' ' :: b)) := by
  refine ⟨?_, fun above below blank hsplit hblank => ?_, fun a b us l hsource hopen hdepth ha hb ts hts => ?_⟩
  · have hspots := Token.tokenize_withReturns hreturn
    exact ⟨hspots, parsedAlike_of_contents (contents_of_spots hspots)⟩
  · have hinsert := Token.tokenize_insert hsplit hblank
    exact ⟨hinsert, parsedAlike_of_contents hinsert⟩
  · obtain ⟨vs, hvs, halike⟩ := Token.tokenize_join hsource hreturn hopen hdepth ha hb hts
    have hjoin : contents (String.ofList (a ++ ' ' :: b)) = some (ts.map Token.content) :=
      Token.contents_iff.mpr ⟨vs, hvs, halike⟩
    exact ⟨hjoin, parsedAlike_of_contents (hjoin.trans (Token.contents_of_ok hts).symm)⟩

/-- A call on two lines. -/
def splitSource : String := "display f(1,\n  2)\n"

theorem splitSource_relaid : '\r' ∉ splitSource.toList ∧
    List.map spot <$> tokenize "display f(1,\r\n  2)\r\n" = List.map spot <$> tokenize splitSource ∧
    contents "display f(1,\n \t\n  2)\n" = contents splitSource ∧
      contents "display f(1,   2)\n" = contents splitSource ∧
    ∃ p q, parseTo .descent nestingLimit splitSource = .ok p ∧
      parseTo .descent nestingLimit "display f(1,   2)\n" = .ok q ∧ q.bare id = p.bare id := by
  have hreturn : '\r' ∉ splitSource.toList := by decide
  obtain ⟨⟨hreturns, -⟩, hinsert, hjoin⟩ := layout_does_not_matter hreturn
  have hblank := (hinsert ["display f(1,".toList] ["  2)".toList, []] " \t".toList (by decide) (by decide)).1
  have hopen : (match Layout.start.lines 1 (splitLines "display f(1,".toList) with
      | .ok (_, l) => decide (0 < l.depth)
      | .error _ => false) = true := by decide +kernel
  have hparse : (parseTo .descent nestingLimit splitSource).isOk = true := by decide +kernel
  cases hlines : Layout.start.lines 1 (splitLines "display f(1,".toList) with
  | error e =>
    rw [hlines] at hopen
    cases hopen
  | ok r =>
    rw [hlines] at hopen
    cases hp : parseTo .descent nestingLimit splitSource with
    | error e =>
      rw [hp] at hparse
      cases hparse
    | ok p =>
      obtain ⟨ts, hts, -⟩ := parseTo_ok hp
      obtain ⟨hjoined, halike⟩ := hjoin _ "  2)\n".toList r.1 r.2 rfl hlines (of_decide_eq_true hopen) (by decide)
        (by decide) ts hts
      obtain ⟨q, hq, heq⟩ := halike nestingLimit p hp
      exact ⟨hreturn, hreturns, hblank, hjoined.trans (Token.contents_of_ok hts).symm, p, q, rfl, hq, heq⟩

end TillLang
