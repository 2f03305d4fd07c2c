/-
  TillLang.Proofs.Answer — every source text has an answer.

  A front end returns a program for a text, or refuses it at a place in the text: for a lexical
  fault, which both front ends report alike, or for a syntax error (`frontends_answer`). The
  other causes that a parser knows are those of token lists that no text has, and none of them
  comes up. There is one answer for a text, whatever the depth of nesting, besides the one that
  the text nests too deep.
-/

import TillLang.Proofs.Rejection
import TillLang.Proofs.Token.Inside

namespace TillLang

open Token (Stream splitLines)
open Parse (Within programPosition)

/-- The parser of a front end. -/
def Frontend.programTo : Frontend → Nat → List Token → Except Parse.Fault Node
  | .descent => Parse.programTo
  | .table => Grammar.programTo

theorem parseTo_of_tokens {source : String} {tokens : List Token} (h : tokenize source = .ok tokens)
    (frontend : Frontend) (depth : Nat) :
    parseTo frontend depth source = (frontend.programTo depth tokens).mapError .parse := by
  rw [parseTo, h]
  cases frontend <;> rfl

theorem parseTo_of_fault {source : String} {e : Token.Error} (h : tokenize source = .error e) (frontend : Frontend)
    (depth : Nat) : parseTo frontend depth source = .error (.lexical e) := by
  rw [parseTo, h]
  rfl

/-- A lexical fault is reported exactly when the text has it, by either front end. -/
theorem parseTo_lexical_iff {frontend : Frontend} {depth : Nat} {source : String} {e : Token.Error} :
    parseTo frontend depth source = .error (.lexical e) ↔ tokenize source = .error e := by
  refine ⟨fun h => ?_, fun h => parseTo_of_fault h frontend depth⟩
  cases ht : tokenize source with
  | error e' =>
    rw [parseTo_of_fault ht] at h
    cases h
    rfl
  | ok tokens =>
    rw [parseTo_of_tokens ht] at h
    cases hp : frontend.programTo depth tokens with
    | error fault =>
      rw [hp] at h
      cases h
    | ok p =>
      rw [hp] at h
      cases h

/-! ## One answer -/

/-- The answer of a front end for a token list: from some depth on it is the one given, and below it may only be
that the text nests too deep. -/
structure Frontend.Settles (frontend : Frontend) (tokens : List Token) (answer : Except Parse.Fault Node) : Prop where
  reached : ∃ limit, ∀ depth, limit ≤ depth → frontend.programTo depth tokens = answer
  within : ∀ depth, Within (frontend.programTo depth tokens) answer

section Settles

variable {tokens : List Token} {answer : Except Parse.Fault Node}

theorem settles_descent {limit : Nat} (h : ∀ depth, limit ≤ depth → Parse.programTo depth tokens = answer) :
    Frontend.descent.Settles tokens answer where
  reached := ⟨limit, h⟩
  within depth := by
    rw [← h _ (Nat.le_max_right depth limit)]
    exact Parse.programTo_within (Nat.le_max_left depth limit) tokens

theorem settles_table {limit : Nat} {p : Node} (h : ∀ depth, limit ≤ depth → Grammar.programTo depth tokens = .ok p) :
    Frontend.table.Settles tokens (.ok p) where
  reached := ⟨limit, h⟩
  within depth := by
    obtain ⟨t, ht, hp⟩ := Success.bind_iff.mp (h limit (Nat.le_refl _))
    simp only [Frontend.programTo, Grammar.programTo, ht, Success.ok_bind]
    by_cases hd : depth < t.depth
    · rw [if_pos hd]
      exact .inl ⟨_, rfl, none, rfl⟩
    · rw [if_neg hd]
      split at hp
      · cases hp
      · exact .inr hp

theorem settles_underived {fault : Parse.Fault} (h : Grammar.derive tokens = .error fault) :
    Frontend.table.Settles tokens (.error fault) := by
  have hall : ∀ depth, Grammar.programTo depth tokens = .error fault := fun depth => by
    rw [Grammar.programTo, h]
    rfl
  exact ⟨⟨0, fun depth _ => hall depth⟩, fun depth => .inr (hall depth)⟩

end Settles

/-- A program, or a syntax error at a place with a property. -/
def Parse.Answers (P : Location → Prop) : Except Parse.Fault Node → Prop
  | .ok p => ∃ body, p = .program body programPosition
  | .error (.rejected e) => ∃ place, e.location = some place ∧ P place
  | .error _ => False

/-- For tokens in order whose literals can be read, a front end has an answer. A syntax error is at one of the
tokens or at the start. -/
theorem parsers_answer {tokens : List Token} (hs : Stream tokens) (hread : ∀ t ∈ tokens, t.Readable)
    {P : Location → Prop} (hstart : P Grammar.finishLocation) (htokens : ∀ t ∈ tokens, P t.location)
    (frontend : Frontend) : ∃ answer, frontend.Settles tokens answer ∧ Parse.Answers P answer := by
  by_cases hex : ∃ depth p, Parse.programTo depth tokens = .ok p
  · obtain ⟨d, p, hp⟩ := hex
    obtain ⟨body, rfl, hspell⟩ := (Parse.programTo_iff hs).mp hp
    refine ⟨.ok (.program body programPosition), ?_, body, rfl⟩
    cases frontend with
    | descent => exact settles_descent fun depth hd => (Parse.programTo_iff hs).mpr ⟨body, rfl, hspell.mono hd⟩
    | table =>
      obtain ⟨limit, hlimit⟩ := Grammar.programTo_of_spells hs hspell
      exact settles_table hlimit
  · obtain ⟨front, u, rest, x, expected, expected', hsplit, -, -, -, hblame, hderive⟩ :=
      parsers_blame_alike hs hread fun depth p hp => hex ⟨depth, p, hp⟩
    have hu : P u.location := htokens u (hsplit ▸ by simp)
    cases frontend with
    | descent => exact ⟨_, settles_descent hblame, _, rfl, hu⟩
    | table =>
      refine ⟨_, settles_underived hderive, _, rfl, ?_⟩
      unfold tablePlace
      split
      · exact hstart
      · exact hu

/-! ## The front ends -/

/-- What a front end owes for a text of the given lines: a program, or an error at a place in the text, which is
lexical or one of syntax. -/
def IsAnswer (lines : List (List Char)) : Except Error Node → Prop
  | .error (.lexical e) => e.location.Inside lines
  | .error (.parse fault) => Parse.Answers (Location.Inside lines) (.error fault)
  | .ok p => Parse.Answers (Location.Inside lines) (.ok p)
  | .error _ => False

theorem isAnswer_of_tokens {lines : List (List Char)} {answer : Except Parse.Fault Node}
    (h : Parse.Answers (Location.Inside lines) answer) : IsAnswer lines (answer.mapError .parse) := by
  cases answer with
  | error fault => exact h
  | ok p => exact h

/-- Each front end has one answer for a source text, a program or an error at a place in the text, and at any depth
of nesting it gives that answer or the one that the text nests too deep. Both report a lexical fault for the same
texts, and then the same one. -/
theorem frontends_answer (source : String) :
    (∀ frontend, ∃ answer, IsAnswer (splitLines source.toList) answer ∧
      (∃ limit, ∀ depth, limit ≤ depth → parseTo frontend depth source = answer) ∧
      ∀ depth, parseTo frontend depth source = answer ∨
        ∃ fault, fault.isDepth ∧ parseTo frontend depth source = .error (.parse fault)) ∧
    ∀ d d' e, parseTo .descent d source = .error (.lexical e) ↔ parseTo .table d' source = .error (.lexical e) := by
  refine ⟨fun frontend => ?_, fun d d' e => parseTo_lexical_iff.trans parseTo_lexical_iff.symm⟩
  have hinside := Token.tokenize_inside source
  cases ht : tokenize source with
  | error e =>
    rw [ht] at hinside
    have hall := parseTo_of_fault ht frontend
    exact ⟨.error (.lexical e), hinside, ⟨0, fun depth _ => hall depth⟩, fun depth => .inl (hall depth)⟩
  | ok tokens =>
    rw [ht] at hinside
    obtain ⟨answer, ⟨⟨limit, hreached⟩, hwithin⟩, hanswer⟩ := parsers_answer (Token.tokenize_stream ht)
      (Token.tokenize_readable ht) (Token.inside_start _) hinside frontend
    refine ⟨answer.mapError .parse, isAnswer_of_tokens hanswer, ⟨limit, fun depth hd => ?_⟩, fun depth => ?_⟩
    · rw [parseTo_of_tokens ht, hreached depth hd]
    · rw [parseTo_of_tokens ht]
      rcases hwithin depth with ⟨fault, hfault, hdepth⟩ | heq
      · exact .inr ⟨fault, hdepth, by rw [hfault]; rfl⟩
      · exact .inl (by rw [heq])

end TillLang
