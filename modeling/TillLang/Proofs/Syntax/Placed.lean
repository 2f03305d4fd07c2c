/-
  TillLang.Proofs.Syntax.Placed — trees with every node in its place.

  `Placed` holds of the trees that the grammar has a place for: statements in blocks, expressions
  in statements, blocks that are not empty, and operators of the grammar. What the literals and
  the names of such a tree are is left open: `lit` says it of literals and `word` of names.
-/

import TillLang.Syntax.Printer
import TillLang.Typing.Check

namespace TillLang

/-- The places of nodes. -/
inductive Place where
  | expression
  | parameter
  | statement
  | block

/-- A node that fits a place. -/
inductive Placed (lit : Literal → Prop) (word : String → Prop) : Place → Node → Prop
  | literal {v : Literal} {position : Option Position} (hv : lit v) :
      Placed lit word .expression (.literal v position)
  | identifier {name : String} {position : Option Position} (hn : word name) :
      Placed lit word .expression (.identifier name position)
  | unary {op : String} {operand : Node} {position : Option Position} (hop : op = "!" ∨ op = "~")
      (h : Placed lit word .expression operand) : Placed lit word .expression (.unary op operand position)
  | binary {op : String} {level : Nat} {left right : Node} {position : Option Position}
      (hop : Syntax.precedence? op = some level) (hl : Placed lit word .expression left)
      (hr : Placed lit word .expression right) : Placed lit word .expression (.binary op left right position)
  | call {callee : String} {args : List Node} {position : Option Position} (hn : word callee)
      (ha : ∀ arg ∈ args, Placed lit word .expression arg) :
      Placed lit word .expression (.call callee args position)
  | param {type name : String} {position : Option Position} (ht : word type) (hn : word name) :
      Placed lit word .parameter (.param (some type) name position)
  | varDecl {type name : String} {position : Option Position} (ht : word type) (hn : word name) :
      Placed lit word .statement (.varDecl (some type) name .absent position)
  | varInit {type name : String} {initializer : Node} {position : Option Position} (ht : word type)
      (hn : word name) (h : Placed lit word .expression initializer) :
      Placed lit word .statement (.varDecl (some type) name initializer position)
  | assignment {name : String} {value : Node} {position : Option Position} (hn : word name)
      (h : Placed lit word .expression value) : Placed lit word .statement (.assignment name value position)
  | returnPlain {position : Option Position} : Placed lit word .statement (.returnStmt .absent position)
  | returnValue {value : Node} {position : Option Position} (h : Placed lit word .expression value) :
      Placed lit word .statement (.returnStmt value position)
  | display {value : Node} {position : Option Position} (h : Placed lit word .expression value) :
      Placed lit word .statement (.display value position)
  | ifStmt {condition body : Node} {position : Option Position} (hc : Placed lit word .expression condition)
      (hb : Placed lit word .block body) : Placed lit word .statement (.ifStmt condition body position)
  | whileStmt {condition body : Node} {position : Option Position} (hc : Placed lit word .expression condition)
      (hb : Placed lit word .block body) : Placed lit word .statement (.whileStmt condition body position)
  | function {name : String} {params : List Node} {returns : Option String} {body : Node}
      {position : Option Position} (hn : word name) (hp : ∀ param ∈ params, Placed lit word .parameter param)
      (hr : ∀ type, returns = some type → word type) (hb : Placed lit word .block body) :
      Placed lit word .statement (.function name params returns body position)
  | block {statements : List Node} {position : Option Position} (hne : statements ≠ [])
      (h : ∀ s ∈ statements, Placed lit word .statement s) : Placed lit word .block (.block statements position)

variable {lit lit' : Literal → Prop} {word word' : String → Prop}

theorem Placed.mono {place : Place} {node : Node} (h : Placed lit word place node) (hlit : ∀ v, lit v → lit' v)
    (hword : ∀ name, word name → word' name) : Placed lit' word' place node := by
  induction h with
  | literal hv => exact .literal (hlit _ hv)
  | identifier hn => exact .identifier (hword _ hn)
  | unary hop _ ih => exact .unary hop ih
  | binary hop _ _ ihl ihr => exact .binary hop ihl ihr
  | call hn _ ih => exact .call (hword _ hn) ih
  | param ht hn => exact .param (hword _ ht) (hword _ hn)
  | varDecl ht hn => exact .varDecl (hword _ ht) (hword _ hn)
  | varInit ht hn _ ih => exact .varInit (hword _ ht) (hword _ hn) ih
  | assignment hn _ ih => exact .assignment (hword _ hn) ih
  | returnPlain => exact .returnPlain
  | returnValue _ ih => exact .returnValue ih
  | display _ ih => exact .display ih
  | ifStmt _ _ ihc ihb => exact .ifStmt ihc ihb
  | whileStmt _ _ ihc ihb => exact .whileStmt ihc ihb
  | function hn _ hr _ ihp ihb => exact .function (hword _ hn) ihp (fun t ht => hword _ (hr t ht)) ihb
  | block hne _ ih => exact .block hne ih

theorem Placed.not_absent {node : Node} (h : Placed lit word .expression node) : node.isAbsent = false := by
  cases h <;> rfl

/-- The operands of a chain of operators are in their places. -/
theorem Placed.spineOnto {node : Node} (h : Placed lit word .expression node) {later : List Joint}
    (hlater : ∀ joint ∈ later, Placed lit word .expression joint.right) :
    Placed lit word .expression (node.spineOnto later).1 ∧
      ∀ joint ∈ (node.spineOnto later).2, Placed lit word .expression joint.right := by
  generalize hplace : Place.expression = place at h
  induction h generalizing later with
  | binary hop hl hr ihl ihr =>
    refine ihl (fun joint hj => ?_) rfl
    rcases List.mem_cons.mp hj with rfl | hj
    · exact hr
    · exact hlater joint hj
  | literal hv => exact ⟨.literal hv, hlater⟩
  | identifier hn => exact ⟨.identifier hn, hlater⟩
  | unary hop h => exact ⟨.unary hop h, hlater⟩
  | call hn ha => exact ⟨.call hn ha, hlater⟩
  | _ => cases hplace

theorem Placed.spine {node : Node} (h : Placed lit word .expression node) :
    Placed lit word .expression node.spine.1 ∧
      ∀ joint ∈ node.spine.2, Placed lit word .expression joint.right :=
  h.spineOnto fun _ hj => by cases hj

end TillLang
