/-
  TillLang.Proofs.Syntax.Bare — trees without their positions.

  `Node.bare` drops the positions of a tree and puts every literal into a form that is left
  open. Two trees in their places with the same bare tree are equal for the comparison of trees,
  if literals of the same form are (`same_of_bare`).
-/

import TillLang.Proofs.Syntax.Placed
import TillLang.Syntax.Equality

namespace TillLang

open Node

namespace Node

variable (form : Literal → Literal)

mutual

/-- A tree without positions, and with its literals in a form. -/
def bare : Node → Node
  | .absent => .absent
  | .program body _ => .program (bares body) none
  | .block statements _ => .block (bares statements) none
  | .varDecl type name initializer _ => .varDecl type name initializer.bare none
  | .param type name _ => .param type name none
  | .function name params returns body _ => .function name (bares params) returns body.bare none
  | .ifStmt condition body _ => .ifStmt condition.bare body.bare none
  | .whileStmt condition body _ => .whileStmt condition.bare body.bare none
  | .assignment name value _ => .assignment name value.bare none
  | .returnStmt value _ => .returnStmt value.bare none
  | .display value _ => .display value.bare none
  | .binary op left right _ => .binary op left.bare right.bare none
  | .unary op operand _ => .unary op operand.bare none
  | .literal value _ => .literal (form value) none
  | .identifier name _ => .identifier name none
  | .call callee args _ => .call callee (bares args) none

def bares : List Node → List Node
  | [] => []
  | n :: rest => n.bare :: bares rest

end

theorem bares_eq_map (ns : List Node) : bares form ns = ns.map (bare form) := by
  induction ns with
  | nil => rfl
  | cons n ns ih => rw [bares, ih, List.map_cons]

end Node

namespace Node

theorem height_le_heights {n : Node} {ns : List Node} (h : n ∈ ns) : n.height ≤ heights ns := by
  induction ns with
  | nil => cases h
  | cons m ns ih =>
    rw [heights]
    rcases List.mem_cons.mp h with rfl | h
    · exact Nat.le_max_left _ _
    · exact Nat.le_trans (ih h) (Nat.le_max_right _ _)

end Node

namespace Syntax

theorem exists_succ {n limit : Nat} (h : n + 1 ≤ limit) : ∃ k, limit = k + 1 := ⟨limit - 1, by omega⟩

variable {form : Literal → Literal} {lit : Literal → Prop} {word : String → Prop}

/-- Lists are equal if they are item by item. -/
theorem sameNodes_of_bare {same : Node → Node → Comparison} {as bs : List Node}
    (h : ∀ a ∈ as, ∀ b, a.bare form = b.bare form → same a b = some true) (heq : bares form as = bares form bs) :
    sameNodes same as bs = some true := by
  rw [bares_eq_map, bares_eq_map] at heq
  have hlen : as.length = bs.length := by simpa using congrArg List.length heq
  rw [sameNodes, if_pos hlen]
  clear hlen
  induction as generalizing bs with
  | nil => rfl
  | cons a as ih =>
    cases bs with
    | nil => simp at heq
    | cons b bs =>
      obtain ⟨ha, has⟩ := List.cons.inj heq
      rw [sameLists, h a (by simp) b ha]
      exact ih (fun a ha => h a (List.mem_cons_of_mem _ ha)) has

/-- Trees with the same bare tree are equal. -/
theorem same_of_bare (hlit : ∀ v w, lit v → form v = form w → sameLiteral v w = true) {place : Place} {a b : Node}
    (h : Placed lit word place a) (heq : a.bare form = b.bare form) {limit : Nat} (hlimit : a.height ≤ limit) :
    sameTo limit a b = some true := by
  induction h generalizing b limit with
  | literal hv =>
    obtain ⟨limit, rfl⟩ := exists_succ hlimit
    cases b <;> simp only [bare, reduceCtorEq, Node.literal.injEq, and_true] at heq
    rw [sameTo, hlit _ _ hv heq]
  | identifier =>
    obtain ⟨limit, rfl⟩ := exists_succ hlimit
    cases b <;> simp only [bare, reduceCtorEq, Node.identifier.injEq, and_true] at heq
    simp [sameTo, heq]
  | unary _ _ ih =>
    obtain ⟨limit, rfl⟩ := exists_succ hlimit
    cases b <;> simp only [bare, reduceCtorEq, Node.unary.injEq, and_true] at heq
    simp [sameTo, heq.1, Comparison.andThen, ih heq.2 (Nat.le_of_succ_le_succ hlimit)]
  | binary _ _ _ ihl ihr =>
    obtain ⟨limit, rfl⟩ := exists_succ hlimit
    have hlimit := Nat.max_le.mp (Nat.le_of_succ_le_succ hlimit)
    cases b <;> simp only [bare, reduceCtorEq, Node.binary.injEq, and_true] at heq
    simp [sameTo, heq.1, Comparison.andThen, ihl heq.2.1 hlimit.1, ihr heq.2.2 hlimit.2]
  | call _ _ ih =>
    obtain ⟨limit, rfl⟩ := exists_succ hlimit
    cases b <;> simp only [bare, reduceCtorEq, Node.call.injEq, and_true] at heq
    have hargs := sameNodes_of_bare (fun a ha b hb =>
      ih a ha hb (Nat.le_trans (height_le_heights ha) (Nat.le_of_succ_le_succ hlimit))) heq.2
    simp [sameTo, heq.1, Comparison.andThen, hargs]
  | param =>
    obtain ⟨limit, rfl⟩ := exists_succ hlimit
    cases b <;> simp only [bare, reduceCtorEq, Node.param.injEq, and_true] at heq
    simp [sameTo, heq.1.symm, heq.2]
  | varDecl =>
    obtain ⟨limit, rfl⟩ := exists_succ hlimit
    cases b <;> simp only [bare, reduceCtorEq, Node.varDecl.injEq, and_true] at heq
    rename_i initializer _
    have habsent : initializer = .absent := by
      have := heq.2.2
      cases initializer <;> simp only [bare, reduceCtorEq] at this
      rfl
    subst habsent
    simp [sameTo, heq.1.symm, heq.2.1, Comparison.andThen]
  | varInit _ _ _ ih =>
    obtain ⟨limit, rfl⟩ := exists_succ hlimit
    cases b <;> simp only [bare, reduceCtorEq, Node.varDecl.injEq, and_true] at heq
    simp [sameTo, heq.1.symm, heq.2.1, Comparison.andThen, ih heq.2.2 (Nat.le_of_succ_le_succ hlimit)]
  | assignment _ _ ih =>
    obtain ⟨limit, rfl⟩ := exists_succ hlimit
    cases b <;> simp only [bare, reduceCtorEq, Node.assignment.injEq, and_true] at heq
    simp [sameTo, heq.1, Comparison.andThen, ih heq.2 (Nat.le_of_succ_le_succ hlimit)]
  | returnPlain =>
    obtain ⟨limit, rfl⟩ := exists_succ hlimit
    cases b <;> simp only [bare, reduceCtorEq, Node.returnStmt.injEq, and_true] at heq
    rename_i value _
    have habsent : value = .absent := by
      cases value <;> simp only [bare, reduceCtorEq] at heq
      rfl
    subst habsent
    simp [sameTo]
  | returnValue _ ih =>
    obtain ⟨limit, rfl⟩ := exists_succ hlimit
    cases b <;> simp only [bare, reduceCtorEq, Node.returnStmt.injEq, and_true] at heq
    simp [sameTo, ih heq (Nat.le_of_succ_le_succ hlimit)]
  | display _ ih =>
    obtain ⟨limit, rfl⟩ := exists_succ hlimit
    cases b <;> simp only [bare, reduceCtorEq, Node.display.injEq, and_true] at heq
    simp [sameTo, ih heq (Nat.le_of_succ_le_succ hlimit)]
  | ifStmt _ _ ihc ihb =>
    obtain ⟨limit, rfl⟩ := exists_succ hlimit
    have hlimit := Nat.max_le.mp (Nat.le_of_succ_le_succ hlimit)
    cases b <;> simp only [bare, reduceCtorEq, Node.ifStmt.injEq, and_true] at heq
    simp [sameTo, Comparison.andThen, ihc heq.1 hlimit.1, ihb heq.2 hlimit.2]
  | whileStmt _ _ ihc ihb =>
    obtain ⟨limit, rfl⟩ := exists_succ hlimit
    have hlimit := Nat.max_le.mp (Nat.le_of_succ_le_succ hlimit)
    cases b <;> simp only [bare, reduceCtorEq, Node.whileStmt.injEq, and_true] at heq
    simp [sameTo, Comparison.andThen, ihc heq.1 hlimit.1, ihb heq.2 hlimit.2]
  | function _ _ _ _ ihp ihb =>
    obtain ⟨limit, rfl⟩ := exists_succ hlimit
    have hlimit := Nat.max_le.mp (Nat.le_of_succ_le_succ hlimit)
    cases b <;> simp only [bare, reduceCtorEq, Node.function.injEq, and_true] at heq
    have hparams :=
      sameNodes_of_bare (fun a ha b hb => ihp a ha hb (Nat.le_trans (height_le_heights ha) hlimit.1)) heq.2.1
    simp [sameTo, heq.1, heq.2.2.1, Comparison.andThen, hparams, ihb heq.2.2.2 hlimit.2]
  | block _ _ ih =>
    obtain ⟨limit, rfl⟩ := exists_succ hlimit
    cases b <;> simp only [bare, reduceCtorEq, Node.block.injEq, and_true] at heq
    rw [sameTo]
    exact sameNodes_of_bare (fun a ha b hb =>
      ih a ha hb (Nat.le_trans (height_le_heights ha) (Nat.le_of_succ_le_succ hlimit))) heq

end Syntax

end TillLang
