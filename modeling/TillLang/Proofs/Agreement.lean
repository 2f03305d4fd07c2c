/-
  TillLang.Proofs.Agreement — the two front ends parse alike.

  Both front ends are compared with what the tokens of a text spell: the descent returns
  exactly the spelled programs, the table derives exactly the trees that mean them. So they
  accept the same texts and build the same programs, positions included, up to the depth of
  nesting that each of them stops at: from some depth on they agree on a text altogether, and
  whatever the two depths are, two programs of one text are equal.
-/

import TillLang.Pipeline
import TillLang.Proofs.Grammar.Existence
import TillLang.Proofs.Grammar.Table
import TillLang.Proofs.Parse.Complete

namespace TillLang

open Token (Stream)
open Parse (SpellsProgram programPosition)

namespace Grammar

theorem Tree.program_ok_iff {t : Tree} {n : Node} : t.program = .ok n ↔ t.parts = .ok [.node n] := by
  simp only [program, Success.bind_iff]
  constructor
  · rintro ⟨ps, hps, h⟩
    split at h
    · obtain rfl := Except.ok.inj h
      exact hps
    · cases h
  · intro h
    exact ⟨_, h, rfl⟩

/-- The table parses a text to a program exactly when a tree above its tokens leaves the program. -/
theorem programTo_iff {depth : Nat} {ts : List Token} {last : Token} (hs : Stream (ts ++ [last]))
    (hlast : last.Stands .finish) {n : Node} :
    programTo depth (ts ++ [last]) = .ok n ↔ ∃ t : Tree, t.Valid ∧ t.symbol = .nonterminal .start ∧ t.tokens = ts ∧
      t.depth ≤ depth ∧ t.parts = .ok [.node n] := by
  have hts : ∀ t ∈ ts, Terminal.ofToken? t ≠ some .finish := by
    obtain ⟨front, e, hall, -, hfront⟩ := hs.ended
    obtain ⟨rfl, -⟩ := List.append_inj' hall rfl
    exact fun t ht hx => hfront t ht (Token.Stands.kind hx rfl)
  simp only [programTo, Success.bind_iff]
  constructor
  · rintro ⟨t, ht, h⟩
    obtain ⟨hv, hsym, htok⟩ := (derive_ok_iff hlast hts).mp ht
    split at h
    · cases h
    · rename_i hd
      exact ⟨t, hv, hsym, htok, by omega, Tree.program_ok_iff.mp h⟩
  · rintro ⟨t, hv, hsym, htok, hd, hparts⟩
    refine ⟨t, (derive_ok_iff hlast hts).mpr ⟨hv, hsym, htok⟩, ?_⟩
    rw [if_neg (by omega)]
    exact Tree.program_ok_iff.mpr hparts

/-- A program that the table returns is spelled by the whole text. -/
theorem spells_of_programTo {depth : Nat} {tokens : List Token} (hs : Stream tokens) {n : Node}
    (h : programTo depth tokens = .ok n) :
    ∃ body d, n = .program body programPosition ∧ SpellsProgram d tokens body := by
  obtain ⟨ts, last, rfl, hk, -⟩ := hs.ended
  have hlast : last.Stands .finish := by simp [Token.Stands, Terminal.ofToken?, hk]
  obtain ⟨t, hv, hsym, rfl, -, hparts⟩ := (programTo_iff hs hlast).mp h
  have hm := hv.means (Nat.le_refl t.size) hparts
  rw [hsym] at hm
  obtain ⟨body, hbody, hspell⟩ := hm
  obtain rfl : n = .program body programPosition := by simpa using hbody
  exact ⟨body, t.size, rfl, t.tokens, last, rfl, hlast, hspell⟩

/-- The statements of a text have a tree of the start symbol above their tokens. -/
theorem hasTree_start {d : Nat} {ts : List Token} {body : List Node}
    (h : ts = [] ∧ body = [] ∨ Parse.Spells d .statements ts body) :
    HasTree Nonterminal.start ts [.node (.program body programPosition)] := by
  rcases h with ⟨rfl, rfl⟩ | h
  · exact hasTree_construct (r := .startEmpty) hasTrees_nil rfl rfl
  · obtain ⟨xs, hne, rfl, rfl, hxs⟩ := derives_of_spells h
    refine hasTree_construct (r := .startBody) (hasTree_statements hne hxs).last rfl ?_
    rw [← nodesOf_nodes]
    rfl

/-- A spelled program is returned by the table, at every depth that the tree of the text needs. -/
theorem programTo_of_spells {d : Nat} {tokens : List Token} (hs : Stream tokens) {body : List Node}
    (h : SpellsProgram d tokens body) :
    ∃ limit, ∀ depth, limit ≤ depth → programTo depth tokens = .ok (.program body programPosition) := by
  obtain ⟨ts, last, rfl, hlast, hbody⟩ := h
  obtain ⟨t, hv, hsym, htok, hparts⟩ := hasTree_start hbody
  exact ⟨t.depth, fun depth hd => (programTo_iff hs hlast).mpr ⟨t, hv, hsym, htok, hd, hparts⟩⟩

end Grammar

theorem parseTo_ok {frontend : Frontend} {depth : Nat} {source : String} {p : Node}
    (h : parseTo frontend depth source = .ok p) : ∃ tokens, tokenize source = .ok tokens ∧ Stream tokens := by
  obtain ⟨tokens, ht, -⟩ := Success.bind_iff.mp h
  have ht := Success.mapError_iff.mp ht
  exact ⟨tokens, ht, Token.tokenize_stream ht⟩

section Tokens

variable {source : String} {tokens : List Token} (h : tokenize source = .ok tokens) {depth : Nat} {p : Node}
include h

theorem parseTo_descent : parseTo .descent depth source = .ok p ↔ Parse.programTo depth tokens = .ok p := by
  rw [parseTo, h]
  exact Success.mapError_iff

theorem parseTo_table : parseTo .table depth source = .ok p ↔ Grammar.programTo depth tokens = .ok p := by
  rw [parseTo, h]
  exact Success.mapError_iff

end Tokens

/-- Whatever a front end returns is spelled by the tokens of the text. -/
theorem parseTo_spells {frontend : Frontend} {source : String} {depth : Nat} {p : Node}
    (h : parseTo frontend depth source = .ok p) :
    ∃ tokens body d, tokenize source = .ok tokens ∧ Stream tokens ∧ p = .program body programPosition ∧
      SpellsProgram d tokens body := by
  obtain ⟨tokens, ht, hs⟩ := parseTo_ok h
  cases frontend with
  | descent =>
    obtain ⟨body, rfl, hspell⟩ := (Parse.programTo_iff hs).mp ((parseTo_descent ht).mp h)
    exact ⟨tokens, body, depth, ht, hs, rfl, hspell⟩
  | table =>
    obtain ⟨body, d, rfl, hspell⟩ := Grammar.spells_of_programTo hs ((parseTo_table ht).mp h)
    exact ⟨tokens, body, d, ht, hs, rfl, hspell⟩

/-! ## Agreement -/

/-- A program that the table returns is returned by the descent, from some depth on. -/
theorem descent_of_table {source : String} {depth : Nat} {p : Node} (h : parseTo .table depth source = .ok p) :
    ∃ limit, ∀ d, limit ≤ d → parseTo .descent d source = .ok p := by
  obtain ⟨tokens, ht, hs⟩ := parseTo_ok h
  obtain ⟨body, d, rfl, hspell⟩ := Grammar.spells_of_programTo hs ((parseTo_table ht).mp h)
  refine ⟨d, fun e he => (parseTo_descent ht).mpr ((Parse.programTo_iff hs).mpr ⟨body, rfl, hspell.mono he⟩)⟩

/-- A program that the descent returns is returned by the table, and by the descent itself, from some
depth on. -/
theorem table_of_descent {source : String} {depth : Nat} {p : Node} (h : parseTo .descent depth source = .ok p) :
    ∃ limit, ∀ d, limit ≤ d → parseTo .table d source = .ok p ∧ parseTo .descent d source = .ok p := by
  obtain ⟨tokens, ht, hs⟩ := parseTo_ok h
  obtain ⟨body, rfl, hspell⟩ := (Parse.programTo_iff hs).mp ((parseTo_descent ht).mp h)
  obtain ⟨limit, hlimit⟩ := Grammar.programTo_of_spells hs hspell
  refine ⟨max limit depth, fun d hd => ⟨(parseTo_table ht).mpr (hlimit d (by omega)), ?_⟩⟩
  exact (parseTo_descent ht).mpr ((Parse.programTo_iff hs).mpr ⟨body, rfl, hspell.mono (by omega)⟩)

/-- The two front ends agree: from some depth of nesting on they return the same programs of a text, and
at any two depths the programs that they do return are equal. -/
theorem frontends_agree (source : String) :
    (∃ limit, ∀ depth, limit ≤ depth → ∀ p,
      parseTo .descent depth source = .ok p ↔ parseTo .table depth source = .ok p) ∧
    ∀ d e p q, parseTo .descent d source = .ok p → parseTo .table e source = .ok q → p = q := by
  constructor
  · by_cases hex : ∃ d p, parseTo .descent d source = .ok p
    · obtain ⟨d, p, hp⟩ := hex
      obtain ⟨limit, hlimit⟩ := table_of_descent hp
      refine ⟨limit, fun depth hd q => ?_⟩
      obtain ⟨htable, hdescent⟩ := hlimit depth hd
      rw [htable, hdescent]
    · refine ⟨0, fun depth _ p => ⟨fun h => absurd ⟨depth, p, h⟩ hex, fun h => ?_⟩⟩
      obtain ⟨limit, hlimit⟩ := descent_of_table h
      exact absurd ⟨limit, p, hlimit limit (Nat.le_refl _)⟩ hex
  · intro d e p q hp hq
    obtain ⟨l₁, h₁⟩ := table_of_descent hp
    obtain ⟨l₂, h₂⟩ := descent_of_table hq
    have hp' := (h₁ (max l₁ l₂) (by omega)).2
    have hq' := h₂ (max l₁ l₂) (by omega)
    exact Except.ok.inj (hp'.symm.trans hq')

end TillLang
