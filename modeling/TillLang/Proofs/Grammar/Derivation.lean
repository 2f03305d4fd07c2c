/-
  TillLang.Proofs.Grammar.Derivation — derivation trees as a theory of their own.

  A tree is valid when the children of every node carry the symbols of its rule and every
  leaf carries the terminal of its token. `yield` is the text below a tree and `size` the
  number of its rules. Nothing here knows of tables or of the descent.

  Proved:
  - every leaf of a valid tree carries the terminal of its token (`Valid.ofToken_of_mem`);
  - a text holds at least one terminal for every sixteen rules above it, the rule of the
    empty program apart (`Valid.size_le`);
  - what a tree leaves for the rule above it, child by child (`parts_node_iff`).
-/

import TillLang.Grammar.Run
import TillLang.Proofs.Success

namespace TillLang.Grammar

/-! ## Rules -/

theorem Rule.mem_all (r : Rule) : r ∈ Rule.all := by cases r <;> decide

/-- A rule is one of the rules of its nonterminal. -/
theorem Rule.mem_ofNonterminal {r : Rule} {n : Nonterminal} (h : r.lhs = n) :
    r ∈ Rule.ofNonterminal n := by
  simp [Rule.ofNonterminal, Rule.mem_all, h]

namespace Tree

/-- Induction on trees, with the claim for all children of a node. -/
theorem induction {P : Tree → Prop} (leaf : ∀ terminal token, P (.leaf terminal token))
    (node : ∀ rule children, (∀ t ∈ children, P t) → P (.node rule children)) (t : Tree) : P t := by
  refine @Tree.rec P (fun ts => ∀ t ∈ ts, P t) leaf node ?_ ?_ t
  · intro t ht
    cases ht
  · intro t ts ht hts u hu
    rcases List.mem_cons.mp hu with rfl | hu
    · exact ht
    · exact hts u hu

/-! ## Validity and yield -/

mutual

/-- The children of every node carry the symbols of its rule, every leaf the terminal of
its token. -/
def Valid : Tree → Prop
  | .leaf terminal token => Terminal.ofToken? token = some terminal
  | .node rule children => children.map symbol = rule.rhs ∧ AllValid children

def AllValid : List Tree → Prop
  | [] => True
  | t :: rest => t.Valid ∧ AllValid rest

end

mutual

/-- The text below a tree. -/
def yield : Tree → List (Terminal × Token)
  | .leaf terminal token => [(terminal, token)]
  | .node _ children => yieldAll children

def yieldAll : List Tree → List (Terminal × Token)
  | [] => []
  | t :: rest => t.yield ++ yieldAll rest

end

mutual

/-- The number of rules of a tree. -/
def size : Tree → Nat
  | .leaf .. => 0
  | .node _ children => sizeAll children + 1

def sizeAll : List Tree → Nat
  | [] => 0
  | t :: rest => t.size + sizeAll rest

end

theorem allValid_iff {ts : List Tree} : AllValid ts ↔ ∀ t ∈ ts, t.Valid := by
  induction ts with
  | nil => simp [AllValid]
  | cons t ts ih => simp [AllValid, ih]

theorem yieldAll_eq (ts : List Tree) : yieldAll ts = ts.flatMap yield := by
  induction ts with
  | nil => rfl
  | cons t ts ih => simp [yieldAll, ih]

theorem yieldAll_append (ts us : List Tree) : yieldAll (ts ++ us) = yieldAll ts ++ yieldAll us := by
  simp [yieldAll_eq]

/-- The tokens below a tree. -/
def tokens (t : Tree) : List Token := t.yield.map Prod.snd

@[simp] theorem tokens_leaf (x : Terminal) (t : Token) : (leaf x t).tokens = [t] := rfl

@[simp] theorem tokens_node (r : Rule) (ts : List Tree) : (node r ts).tokens = ts.flatMap tokens := by
  rw [tokens, yield, yieldAll_eq, List.map_flatMap]
  rfl

theorem valid_node_iff {r : Rule} {ts : List Tree} :
    (node r ts).Valid ↔ ts.map symbol = r.rhs ∧ ∀ t ∈ ts, t.Valid := by
  rw [Valid, allValid_iff]

/-- Every leaf of a valid tree carries the terminal of its token. -/
theorem Valid.ofToken_of_mem {t : Tree} (h : t.Valid) :
    ∀ p ∈ t.yield, Terminal.ofToken? p.2 = some p.1 := by
  induction t using Tree.induction with
  | leaf terminal token =>
    intro p hp
    obtain rfl := List.mem_singleton.mp hp
    exact h
  | node rule children ih =>
    intro p hp
    rw [yield, yieldAll_eq] at hp
    obtain ⟨c, hc, hp⟩ := List.mem_flatMap.mp hp
    exact ih c hc ((valid_node_iff.mp h).2 c hc) p hp

/-! ## Size -/

/-- How many rules fewer than sixteen for each terminal a tree of a symbol has at least. -/
def slack : Symbol → Int
  | .terminal _ => 16
  | .nonterminal .start | .nonterminal .root => -1
  | .nonterminal .primary => 15
  | .nonterminal .unary => 14
  | .nonterminal .multiplicative => 13
  | .nonterminal .additive => 12
  | .nonterminal .relational => 11
  | .nonterminal .equality => 10
  | .nonterminal .expr => 9
  | .nonterminal .returnStmt | .nonterminal .displayStmt | .nonterminal .varDecl
  | .nonterminal .assignment | .nonterminal .ifStmt | .nonterminal .whileStmt
  | .nonterminal .function | .nonterminal .args | .nonterminal .param => 8
  | .nonterminal .simple | .nonterminal .compound | .nonterminal .params => 7
  | .nonterminal .statement => 6
  | .nonterminal .statements => 5
  | .nonterminal _ => 0

/-- The slack of the symbols on the right of a rule. -/
def slackAll : List Symbol → Int
  | [] => 0
  | x :: xs => slack x + slackAll xs

theorem slack_rule (r : Rule) : 1 + slack r.lhs ≤ slackAll r.rhs := by
  cases r <;> decide

theorem Valid.size_le {t : Tree} (h : t.Valid) :
    (t.size : Int) + slack t.symbol ≤ 16 * t.yield.length := by
  induction t using Tree.induction with
  | leaf terminal token => simp [size, symbol, slack, yield]
  | node rule children ih =>
    obtain ⟨hs, hv⟩ := valid_node_iff.mp h
    have hsum : ∀ ts : List Tree, (∀ t ∈ ts, t ∈ children) →
        (sizeAll ts : Int) + slackAll (ts.map symbol) ≤ 16 * (yieldAll ts).length := by
      intro ts hts
      induction ts with
      | nil => simp [sizeAll, yieldAll, slackAll]
      | cons t ts iht =>
        have h1 := ih t (hts t (by simp)) (hv t (hts t (by simp)))
        have h2 := iht (fun u hu => hts u (by simp [hu]))
        simp only [sizeAll, yieldAll, List.map_cons, slackAll, List.length_append] at *
        omega
    have h1 := hsum children (fun _ => id)
    have h2 := slack_rule rule
    rw [hs] at h1
    simp only [size, symbol, yield]
    omega

/-! ## Parts -/

theorem partsOf_cons_iff {t : Tree} {ts : List Tree} {ps : List Part} :
    partsOf (t :: ts) = .ok ps ↔ ∃ p q, t.parts = .ok p ∧ partsOf ts = .ok q ∧ ps = p ++ q := by
  simp only [partsOf, Success.bind_iff, Success.pure_eq, Except.ok.injEq]
  constructor
  · rintro ⟨p, hp, q, hq, rfl⟩
    exact ⟨p, q, hp, hq, rfl⟩
  · rintro ⟨p, q, hp, hq, rfl⟩
    exact ⟨p, hp, q, hq, rfl⟩

theorem parts_node_iff {r : Rule} {ts : List Tree} {ps : List Part} :
    (node r ts).parts = .ok ps ↔ ∃ inner, partsOf ts = .ok inner ∧
      if r.isTransparent then ps = inner else ∃ part, construct r inner = .ok part ∧ ps = [part] := by
  simp only [parts, Success.bind_iff]
  refine exists_congr fun inner => and_congr_right fun _ => ?_
  split
  · simp [eq_comm]
  · rw [Success.bind_iff]
    simp [eq_comm]

end Tree

end TillLang.Grammar
