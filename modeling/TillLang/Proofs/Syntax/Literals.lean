/-
  TillLang.Proofs.Syntax.Literals — the literals of a tree.

  What is known of every literal of a tree is known of the tree in its place
  (`Placed.and_literals`).
-/

import TillLang.Proofs.Syntax.Placed

namespace TillLang

namespace Node

mutual

/-- The literals of a tree. -/
def literals : Node → List Literal
  | .literal value _ => [value]
  | .absent | .param .. | .identifier .. => []
  | .program nodes _ | .block nodes _ | .call _ nodes _ => literalsAll nodes
  | .varDecl _ _ node _ | .assignment _ node _ | .returnStmt node _ | .display node _ | .unary _ node _ => node.literals
  | .function _ params _ body _ => literalsAll params ++ body.literals
  | .ifStmt first second _ | .whileStmt first second _ | .binary _ first second _ => first.literals ++ second.literals

/-- The literals of several trees. -/
def literalsAll : List Node → List Literal
  | [] => []
  | n :: rest => n.literals ++ literalsAll rest

end

theorem mem_literalsAll {v : Literal} {ns : List Node} : v ∈ literalsAll ns ↔ ∃ n ∈ ns, v ∈ n.literals := by
  induction ns with
  | nil => simp [literalsAll]
  | cons n ns ih => simp [literalsAll, ih]

end Node

variable {lit lit' : Literal → Prop} {word : String → Prop}

theorem Placed.and_literals {place : Place} {node : Node} (h : Placed lit word place node)
    (hlit : ∀ v ∈ node.literals, lit' v) : Placed (fun v => lit v ∧ lit' v) word place node := by
  have hleft : ∀ {as bs : List Literal}, (∀ v ∈ as ++ bs, lit' v) → ∀ v ∈ as, lit' v :=
    fun h v hv => h v (List.mem_append_left _ hv)
  have hright : ∀ {as bs : List Literal}, (∀ v ∈ as ++ bs, lit' v) → ∀ v ∈ bs, lit' v :=
    fun h v hv => h v (List.mem_append_right _ hv)
  have heach : ∀ {ns : List Node}, (∀ v ∈ Node.literalsAll ns, lit' v) → ∀ n ∈ ns, ∀ v ∈ n.literals, lit' v :=
    fun h n hn v hv => h v (Node.mem_literalsAll.mpr ⟨n, hn, hv⟩)
  induction h with simp only [Node.literals] at hlit
  | literal hv => exact .literal ⟨hv, hlit _ (by simp)⟩
  | identifier hn => exact .identifier hn
  | unary hop _ ih => exact .unary hop (ih hlit)
  | binary hop _ _ ihl ihr => exact .binary hop (ihl (hleft hlit)) (ihr (hright hlit))
  | call hn _ ih => exact .call hn fun arg harg => ih arg harg (heach hlit arg harg)
  | param ht hn => exact .param ht hn
  | varDecl ht hn => exact .varDecl ht hn
  | varInit ht hn _ ih => exact .varInit ht hn (ih hlit)
  | assignment hn _ ih => exact .assignment hn (ih hlit)
  | returnPlain => exact .returnPlain
  | returnValue _ ih => exact .returnValue (ih hlit)
  | display _ ih => exact .display (ih hlit)
  | ifStmt _ _ ihc ihb => exact .ifStmt (ihc (hleft hlit)) (ihb (hright hlit))
  | whileStmt _ _ ihc ihb => exact .whileStmt (ihc (hleft hlit)) (ihb (hright hlit))
  | function hn _ hr _ ihp ihb =>
    exact .function hn (fun p hp => ihp p hp (heach (hleft hlit) p hp)) hr (ihb (hright hlit))
  | block hne _ ih => exact .block hne fun s hs => ih s hs (heach hlit s hs)

end TillLang
