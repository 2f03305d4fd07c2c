/-
  TillLang.Proofs.Typing.Rules — the typing rules.

  `HasType` and `Accepts` are the type system as rules, with no order of work, no faults and no
  limit. What names mean is a stack of finite maps, one for each scope, and a function around is
  known by what it returns. An expression has a type by a rule for each of its forms; a binary
  operator asks for the types of both operands. Statements are accepted one after the other: a
  declaration binds its name for the statements behind it, a function binds its name for its body
  as well, and its parameters stand in the scope of the body.

  `Node.fits` says that a tree has its nodes in their places. Operators may be any, and blocks may
  be empty; the rules decide about them.
-/

import Mathlib.Data.Finmap
import TillLang.Proofs.Syntax.Placed
import TillLang.Proofs.Typing.Accept

namespace TillLang

/-! ## Nodes in their places -/

namespace Node

mutual

/-- Whether a node can stand in a place, and the nodes below it in theirs. -/
def fits : Place → Node → Bool
  | .expression, .literal .. | .expression, .identifier .. => true
  | .expression, .unary _ operand _ => operand.fits .expression
  | .expression, .binary _ left right _ => left.fits .expression && right.fits .expression
  | .expression, .call _ args _ => allFit .expression args
  | .parameter, .param type _ _ => type.isSome
  | .statement, .varDecl type _ initializer _ =>
    type.isSome && (initializer.isAbsent || initializer.fits .expression)
  | .statement, .assignment _ value _ | .statement, .display value _ => value.fits .expression
  | .statement, .returnStmt value _ => value.isAbsent || value.fits .expression
  | .statement, .ifStmt condition body _ | .statement, .whileStmt condition body _ =>
    condition.fits .expression && body.fits .block
  | .statement, .function _ params _ body _ => allFit .parameter params && body.fits .block
  | .block, .block statements _ => allFit .statement statements
  | _, _ => false

def allFit (place : Place) : List Node → Bool
  | [] => true
  | n :: rest => n.fits place && allFit place rest

end

mutual

/-- How deep the checker nests on a tree. A left operand goes on with the chain of operators that it stands in. -/
def nesting (leans : Bool) : Node → Nat
  | .binary _ left right _ => max (left.nesting true) (right.nesting false) + if leans then 0 else 1
  | .unary _ operand _ => operand.nesting false + 1
  | .call _ args _ => nestings args + 1
  | .literal .. | .identifier .. => 1
  | .varDecl _ _ initializer _ => initializer.nesting false + 1
  | .assignment _ value _ | .returnStmt value _ | .display value _ => value.nesting false + 1
  | .ifStmt condition body _ | .whileStmt condition body _ => max (condition.nesting false) (body.nesting false) + 1
  | .function _ _ _ body _ => body.nesting false + 1
  | .block statements _ | .program statements _ => nestings statements
  | .absent | .param .. => 0

def nestings : List Node → Nat
  | [] => 0
  | n :: rest => max (n.nesting false) (nestings rest)

end

theorem nestings_le_iff {ns : List Node} {depth : Nat} : nestings ns ≤ depth ↔ ∀ n ∈ ns, n.nesting false ≤ depth := by
  induction ns with
  | nil => simp [nestings]
  | cons n rest ih => rw [nestings, Nat.max_le, ih, List.forall_mem_cons]

/-- Trees that fit a block are its statements. -/
theorem exists_of_fits_block {body : Node} (h : body.fits .block = true) :
    ∃ statements position, body = .block statements position ∧ allFit .statement statements = true := by
  cases body <;> simp_all [fits]

end Node

namespace Typing

/-! ## What names mean -/

/-- What the names of one scope stand for. -/
abbrev Names := Finmap fun _ : String => Entry

/-- What names stand for, scope by scope, and what the function around returns, if there is one. -/
structure Env where
  inner : Names
  /-- The enclosing scopes, from the nearest outward. -/
  outer : List Names
  returns : Option (Option String)

structure Parameter where
  type : String
  name : String
  position : Option Position

def Parameter.node (p : Parameter) : Node := .param (some p.type) p.name p.position

namespace Env

/-- Outside of functions, with no names. -/
def start : Env := ⟨∅, [], none⟩

/-- What a name stands for: the innermost scope that binds it says. -/
def lookup? (Γ : Env) (name : String) : Option Entry := (Γ.inner :: Γ.outer).findSome? (·.lookup name)

def bind (Γ : Env) (name : String) (entry : Entry) : Env := { Γ with inner := Γ.inner.insert name entry }

def enter (Γ : Env) : Env := { Γ with inner := ∅, outer := Γ.inner :: Γ.outer }

def bindAll (Γ : Env) (params : List Parameter) : Env := params.foldl (fun Γ p => Γ.bind p.name (.variable p.type)) Γ

def body (Γ : Env) (params : List Parameter) (returns : Option String) : Env :=
  { Γ.enter with returns := some returns }.bindAll params

end Env

/-! ## The rules -/

/-- The type of an expression. -/
inductive HasType (Γ : Env) : Node → String → Prop
  | literal {v : Literal} {position : Option Position} : HasType Γ (.literal v position) v.kind
  | identifier {name type : String} {position : Option Position} (hname : Γ.lookup? name = some (.variable type)) :
      HasType Γ (.identifier name position) type
  | not {operand : Node} {position : Option Position} (h : HasType Γ operand "Bool") :
      HasType Γ (.unary "!" operand position) "Bool"
  | negative {operand : Node} {position : Option Position} (h : HasType Γ operand "Num") :
      HasType Γ (.unary "~" operand position) "Num"
  | arithmetic {op : String} {left right : Node} {position : Option Position} (hop : op ∈ ["+", "-", "*", "/"])
      (hl : HasType Γ left "Num") (hr : HasType Γ right "Num") : HasType Γ (.binary op left right position) "Num"
  | ordering {op : String} {left right : Node} {position : Option Position} (hop : op ∈ ["<", ">"])
      (hl : HasType Γ left "Num") (hr : HasType Γ right "Num") : HasType Γ (.binary op left right position) "Bool"
  | equality {left right : Node} {type : String} {position : Option Position} (hl : HasType Γ left type)
      (hr : HasType Γ right type) : HasType Γ (.binary "==" left right position) "Bool"
  | call {callee type : String} {args : List Node} {params : List String} {position : Option Position}
      (hcallee : Γ.lookup? callee = some (.function params (some type))) (hcount : args.length = params.length)
      (hargs : ∀ pair ∈ args.zip params, HasType Γ pair.1 pair.2) : HasType Γ (.call callee args position) type

/-- Statements that are accepted one after the other. -/
inductive Accepts : Env → List Node → Prop
  | done {Γ : Env} : Accepts Γ []
  | varDecl {Γ : Env} {type name : String} {position : Option Position} {rest : List Node}
      (htype : type ∈ primitiveTypes) (hname : name ∉ Γ.inner) (h : Accepts (Γ.bind name (.variable type)) rest) :
      Accepts Γ (.varDecl (some type) name .absent position :: rest)
  | varInit {Γ : Env} {type name : String} {initializer : Node} {position : Option Position} {rest : List Node}
      (htype : type ∈ primitiveTypes) (hvalue : HasType Γ initializer type) (hname : name ∉ Γ.inner)
      (h : Accepts (Γ.bind name (.variable type)) rest) :
      Accepts Γ (.varDecl (some type) name initializer position :: rest)
  | assign {Γ : Env} {type name : String} {value : Node} {position : Option Position} {rest : List Node}
      (hname : Γ.lookup? name = some (.variable type)) (hvalue : HasType Γ value type) (h : Accepts Γ rest) :
      Accepts Γ (.assignment name value position :: rest)
  | ifTrue {Γ : Env} {condition : Node} {statements : List Node} {around position : Option Position}
      {rest : List Node} (hcondition : HasType Γ condition "Bool") (hbody : Accepts Γ.enter statements)
      (h : Accepts Γ rest) : Accepts Γ (.ifStmt condition (.block statements around) position :: rest)
  | whileTrue {Γ : Env} {condition : Node} {statements : List Node} {around position : Option Position}
      {rest : List Node} (hcondition : HasType Γ condition "Bool") (hbody : Accepts Γ.enter statements)
      (h : Accepts Γ rest) : Accepts Γ (.whileStmt condition (.block statements around) position :: rest)
  | function {Γ : Env} {name : String} {params : List Parameter} {returns : Option String} {statements : List Node}
      {around position : Option Position} {rest : List Node} (hparams : ∀ p ∈ params, p.type ∈ primitiveTypes)
      (hdistinct : (params.map Parameter.name).Nodup) (hreturns : ∀ type ∈ returns, type ∈ primitiveTypes)
      (hends : returns.isSome → ∃ s ∈ statements, s.isReturn = true) (hname : name ∉ Γ.inner)
      (hbody : Accepts ((Γ.bind name (.function (params.map Parameter.type) returns)).body params returns) statements)
      (h : Accepts (Γ.bind name (.function (params.map Parameter.type) returns)) rest) :
      Accepts Γ (.function name (params.map Parameter.node) returns (.block statements around) position :: rest)
  | returnPlain {Γ : Env} {position : Option Position} {rest : List Node} (hreturns : Γ.returns = some none)
      (h : Accepts Γ rest) : Accepts Γ (.returnStmt .absent position :: rest)
  | returnValue {Γ : Env} {type : String} {value : Node} {position : Option Position} {rest : List Node}
      (hreturns : Γ.returns = some (some type)) (hvalue : HasType Γ value type) (h : Accepts Γ rest) :
      Accepts Γ (.returnStmt value position :: rest)
  | display {Γ : Env} {type : String} {value : Node} {position : Option Position} {rest : List Node}
      (hvalue : HasType Γ value type) (h : Accepts Γ rest) : Accepts Γ (.display value position :: rest)

end Typing

end TillLang
