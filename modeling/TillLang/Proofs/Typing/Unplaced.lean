/-
  TillLang.Proofs.Typing.Unplaced — checking does not look at positions.

  The checker reads positions only to report them. On a tree without its positions it gives the
  answer it gives on the tree, up to the position of a violation, and it leaves the same scopes
  (`checkStatement_bare`). So two programs that differ in nothing but positions are both accepted
  or both refused (`checkProgram_of_bare`).
-/

import TillLang.Pipeline
import TillLang.Proofs.Success
import TillLang.Proofs.Syntax.Bare

namespace TillLang

open Node

/-! ## Parts of a bare tree -/

section Parts

variable (form : Literal → Literal)

@[simp] theorem Node.position?_bare (n : Node) : (n.bare form).position? = n.position?.map fun _ => none := by
  cases n <;> rfl

@[simp] theorem Node.className_bare (n : Node) : (n.bare form).className = n.className := by
  cases n <;> rfl

@[simp] theorem Node.isAbsent_bare (n : Node) : (n.bare form).isAbsent = n.isAbsent := by
  cases n <;> rfl

@[simp] theorem Node.isReturn_bare (n : Node) : (n.bare form).isReturn = n.isReturn := by
  cases n <;> rfl

@[simp] theorem Node.declared?_bare (n : Node) : (n.bare form).declared? = n.declared? := by
  cases n <;> rfl

@[simp] theorem Node.statements?_bare (n : Node) : (n.bare form).statements? = n.statements?.map (bares form) := by
  cases n <;> rfl

@[simp] theorem Node.programBody_bare (n : Node) : (n.bare form).programBody = bares form <$> n.programBody := by
  cases n <;> simp [Node.bare, Node.programBody]

@[simp] theorem Node.length_bares (ns : List Node) : (bares form ns).length = ns.length := by
  rw [bares_eq_map, List.length_map]

/-- An operator of a chain of bare trees. -/
def Joint.bare (joint : Joint) : Joint := ⟨joint.op, joint.left.bare form, joint.right.bare form, none⟩

theorem Node.spineOnto_bare : ∀ (n : Node) (later : List Joint),
    (n.bare form).spineOnto (later.map (Joint.bare form)) =
      ((n.spineOnto later).1.bare form, (n.spineOnto later).2.map (Joint.bare form))
  | .binary op left right position, later => left.spineOnto_bare (⟨op, left, right, position⟩ :: later)
  | .absent, _ | .program .., _ | .block .., _ | .varDecl .., _ | .param .., _ | .function .., _ | .ifStmt .., _
  | .whileStmt .., _ | .assignment .., _ | .returnStmt .., _ | .display .., _ | .unary .., _ | .literal .., _
  | .identifier .., _ | .call .., _ => rfl

theorem Node.spine_bare (n : Node) :
    (n.bare form).spine = (n.spine.1.bare form, n.spine.2.map (Joint.bare form)) :=
  n.spineOnto_bare form []

end Parts

namespace Success

variable {ε ε' α β : Type} (g : ε → ε')

@[simp] theorem mapError_bind (x : Except ε α) (f : α → Except ε β) :
    (x >>= f).mapError g = x.mapError g >>= fun a => (f a).mapError g := by
  cases x <;> rfl

@[simp] theorem mapError_map (x : Except ε α) (f : α → β) : (f <$> x).mapError g = f <$> x.mapError g := by
  cases x <;> rfl

end Success

namespace Typing

open Success

/-- A fault without the position of a violation. -/
def Fault.unplaced : Fault → Fault
  | .violation reason _ => .violation reason none
  | fault => fault

/-- A verdict without the position of a violation. -/
def Verdict.unplaced (v : Verdict) : Verdict := (v.1, v.2.mapError Fault.unplaced)

theorem report_bare {α : Type} (reason : Reason) (n : Node) :
    (report reason (n.bare id) : Except Fault α) = (report reason n).mapError Fault.unplaced := by
  unfold report
  rw [Node.position?_bare]
  cases n.position? <;> rfl

theorem require_bare (context : Context) (expected got : String) (n : Node) :
    require context expected got (n.bare id) = (require context expected got n).mapError Fault.unplaced := by
  unfold require
  split
  · rfl
  · exact report_bare _ n

theorem resolveType_bare (type : Option String) (n : Node) :
    resolveType type (n.bare id) = (resolveType type n).mapError Fault.unplaced := by
  unfold resolveType
  split
  · rfl
  · split
    · rfl
    · exact report_bare _ n

/-! ## Expressions -/

variable {scopes : Scopes}

theorem inferIdentifier_bare (name : String) (n : Node) :
    inferIdentifier scopes name (n.bare id) = (inferIdentifier scopes name n).mapError Fault.unplaced := by
  unfold inferIdentifier
  split
  · exact report_bare _ n
  · exact report_bare _ n
  · rfl

theorem inferUnary_bare (op got : String) (operand n : Node) :
    inferUnary op got (operand.bare id) (n.bare id) = (inferUnary op got operand n).mapError Fault.unplaced := by
  unfold inferUnary
  split
  · simp [require_bare]
  split
  · simp [require_bare]
  · exact report_bare _ n

theorem inferBinary_bare (joint : Joint) (left right : String) :
    inferBinary (joint.bare id) left right = (inferBinary joint left right).mapError Fault.unplaced := by
  obtain ⟨op, leftNode, rightNode, position⟩ := joint
  change (if isArithmetic op || isOrdering op then do
      require (.leftOperand op) "Num" left (leftNode.bare id)
      require (.rightOperand op) "Num" right (rightNode.bare id)
      return if isArithmetic op then "Num" else "Bool"
    else if op = "==" then do
      require (.rightOperand op) left right (rightNode.bare id)
      return "Bool"
    else report (.unknownBinary op) (.binary op (leftNode.bare id) (rightNode.bare id) none)) = _
  unfold inferBinary
  split
  · simp [require_bare]
  split
  · simp [require_bare]
  · exact report_bare _ (.binary op leftNode rightNode position)

section Parts

variable {infer : Node → Except Fault String} (hinfer : ∀ n, infer (n.bare id) = (infer n).mapError Fault.unplaced)
include hinfer

theorem inferArguments_bare (callee : String) (index : Nat) (args : List Node) (types : List String) :
    inferArguments infer callee index (bares id args) types =
      (inferArguments infer callee index args types).mapError Fault.unplaced := by
  induction args generalizing index types with
  | nil => rfl
  | cons arg args ih =>
    cases types with
    | nil => rfl
    | cons type types => simp [bares, inferArguments, hinfer, require_bare, ih]

theorem inferCall_bare (callee : String) (args : List Node) (n : Node) :
    inferCall infer scopes callee (bares id args) (n.bare id) =
      (inferCall infer scopes callee args n).mapError Fault.unplaced := by
  unfold inferCall
  split
  · exact report_bare _ n
  · exact report_bare _ n
  · rw [Node.length_bares]
    split
    · exact report_bare _ n
    · rw [inferArguments_bare hinfer, mapError_bind]
      congr 1
      funext _
      split
      · exact report_bare _ n
      · rfl

theorem inferJoints_bare (joints : List Joint) (left : String) :
    (joints.map (Joint.bare id)).foldlM (fun (left : String) (joint : Joint) => do
        let right ← infer joint.right
        inferBinary joint left right) left =
      (joints.foldlM (fun (left : String) (joint : Joint) => do
        let right ← infer joint.right
        inferBinary joint left right) left).mapError Fault.unplaced := by
  induction joints generalizing left with
  | nil => rfl
  | cons joint joints ih =>
    have hright : infer (joint.bare id).right = (infer joint.right).mapError Fault.unplaced := hinfer joint.right
    simp only [List.map_cons, List.foldlM_cons, mapError_bind, hright, inferBinary_bare, ih, bind_assoc]

end Parts

/-- The type of an expression does not depend on positions. -/
theorem infer_bare (depth : Nat) (n : Node) :
    infer scopes depth (n.bare id) = (infer scopes depth n).mapError Fault.unplaced := by
  induction depth generalizing n with
  | zero => rfl
  | succ depth ih =>
    cases n with
    | literal value position => rfl
    | identifier name position => exact inferIdentifier_bare name (.identifier name position)
    | unary op operand position =>
      simp only [Node.bare, infer, mapError_bind, ih]
      congr 1
      funext got
      exact inferUnary_bare op got operand (.unary op operand position)
    | binary op left right position =>
      have hspine := Node.spine_bare id (.binary op left right position)
      rw [Node.bare] at hspine ⊢
      simp only [infer, hspine, mapError_bind, ih, inferJoints_bare (ih ·)]
    | call callee args position => exact inferCall_bare (ih ·) callee args (.call callee args position)
    | _ => rfl

/-! ## Statements -/

theorem declare_bare (name : String) (entry : Entry) (n : Node) :
    declare scopes name entry (n.bare id) = (declare scopes name entry n).unplaced := by
  unfold declare
  split
  · rfl
  · exact congrArg (Prod.mk scopes) (report_bare _ n)

theorem resolveParam_bare (param : Node) :
    resolveParam (param.bare id) = (resolveParam param).mapError Fault.unplaced := by
  unfold resolveParam
  rw [Node.declared?_bare]
  split
  · rfl
  · exact resolveType_bare _ param

theorem resolveParams_bare (params : List Node) :
    (bares id params).mapM resolveParam = (params.mapM resolveParam).mapError Fault.unplaced := by
  induction params with
  | nil => rfl
  | cons param params ih => simp [bares, List.mapM_cons, resolveParam_bare, ih]

theorem resolveReturns_bare (returns : Option String) (n : Node) :
    (returns.mapM fun type => resolveType (some type) (n.bare id)) =
      (returns.mapM fun type => resolveType (some type) n).mapError Fault.unplaced := by
  cases returns with
  | none => rfl
  | some type => simp only [Option.mapM_some, resolveType_bare, mapError_map]

theorem declareParam_bare (scopes : Scopes) (param : Node) :
    declareParam scopes (param.bare id) = (declareParam scopes param).unplaced := by
  unfold declareParam
  rw [Node.declared?_bare]
  split
  · exact declare_bare _ _ param
  · rfl

theorem endsByReturn_bare (body : Node) : endsByReturn (body.bare id) = endsByReturn body := by
  unfold endsByReturn
  rw [Node.statements?_bare]
  cases body.statements? with
  | none => rfl
  | some statements =>
    simp only [Option.map_some, Option.getD_some, bares_eq_map, List.any_map]
    congr 1
    funext n
    exact n.isReturn_bare id

section Parts

variable {check : Scopes → Node → Verdict} (hcheck : ∀ scopes n, check scopes (n.bare id) = (check scopes n).unplaced)
include hcheck

theorem checkEach_bare (scopes : Scopes) (ns : List Node) :
    checkEach check scopes (bares id ns) = (checkEach check scopes ns).unplaced := by
  induction ns generalizing scopes with
  | nil => rfl
  | cons n ns ih =>
    rw [bares, checkEach, checkEach, hcheck]
    obtain ⟨scopes, answer⟩ := check scopes n
    cases answer with
    | ok => exact ih scopes
    | error fault =>
      cases fault with
      | tooDeep => exact congrArg (Prod.mk scopes) (report_bare _ n)
      | _ => rfl

theorem checkBlock_bare (scopes : Scopes) (body : Node) :
    checkBlock check scopes (body.bare id) = (checkBlock check scopes body).unplaced := by
  unfold checkBlock
  rw [Node.statements?_bare]
  cases body.statements? with
  | none => rfl
  | some statements => simp only [Option.map_some, checkEach_bare hcheck, Verdict.unplaced]

theorem checkBody_bare (scopes : Scopes) (params : List Node) (body : Node) :
    checkBody check scopes (bares id params) (body.bare id) = (checkBody check scopes params body).unplaced := by
  unfold checkBody
  rw [checkEach_bare declareParam_bare, Node.statements?_bare]
  obtain ⟨scopes, answer⟩ := checkEach declareParam scopes params
  cases answer with
  | error fault => rfl
  | ok =>
    cases body.statements? with
    | none => rfl
    | some statements => exact checkEach_bare hcheck scopes statements

variable {infer : Node → Except Fault String} (hinfer : ∀ n, infer (n.bare id) = (infer n).mapError Fault.unplaced)
include hinfer

theorem checkGuarded_bare (scopes : Scopes) (keyword : String) (condition body : Node) :
    checkGuarded infer check scopes keyword (condition.bare id) (body.bare id) =
      (checkGuarded infer check scopes keyword condition body).unplaced := by
  have hcondition :
    (do let got ← infer (condition.bare id); require (.condition keyword) "Bool" got (condition.bare id)) =
      (do let got ← infer condition; require (.condition keyword) "Bool" got condition).mapError Fault.unplaced := by
    simp [hinfer, require_bare]
  unfold checkGuarded
  rw [hcondition]
  cases (do let got ← infer condition; require (.condition keyword) "Bool" got condition) with
  | error fault => rfl
  | ok => exact checkBlock_bare hcheck scopes body

end Parts

/-- The type that a declaration of a variable gives it. -/
def declaredType (infer : Node → Except Fault String) (type : Option String) (name : String) (initializer n : Node) :
    Except Fault String := do
  let type ← resolveType type n
  if !initializer.isAbsent then
    let got ← infer initializer
    require (.initializer name) type got initializer
  return type

theorem checkVariable_eq (infer : Node → Except Fault String) (scopes : Scopes) (type : Option String) (name : String)
    (initializer n : Node) : checkVariable infer scopes type name initializer n =
      match declaredType infer type name initializer n with
      | .error fault => (scopes, .error fault)
      | .ok type => declare scopes name (.variable type) n := rfl

section Infer

variable {infer : Node → Except Fault String} (hinfer : ∀ n, infer (n.bare id) = (infer n).mapError Fault.unplaced)
include hinfer

theorem checkReturn_bare (enclosing : Option Enclosing) (value n : Node) :
    checkReturn infer enclosing (value.bare id) (n.bare id) =
      (checkReturn infer enclosing value n).mapError Fault.unplaced := by
  unfold checkReturn
  rw [Node.isAbsent_bare]
  cases enclosing with
  | none => exact report_bare _ n
  | some function =>
    simp only
    split
    · split
      · rfl
      · exact report_bare _ n
    · split
      · exact report_bare _ n
      · simp [hinfer, require_bare]

theorem declaredType_bare (type : Option String) (name : String) (initializer n : Node) :
    declaredType infer type name (initializer.bare id) (n.bare id) =
      (declaredType infer type name initializer n).mapError Fault.unplaced := by
  unfold declaredType
  rw [Node.isAbsent_bare, resolveType_bare, mapError_bind]
  congr 1
  funext type
  cases initializer.isAbsent <;> simp [hinfer, require_bare]

theorem checkVariable_bare (scopes : Scopes) (type : Option String) (name : String) (initializer n : Node) :
    checkVariable infer scopes type name (initializer.bare id) (n.bare id) =
      (checkVariable infer scopes type name initializer n).unplaced := by
  simp only [checkVariable_eq, declaredType_bare hinfer]
  cases declaredType infer type name initializer n with
  | error fault => rfl
  | ok type => exact declare_bare name (.variable type) n

theorem checkAssignment_bare (scopes : Scopes) (name : String) (value n : Node) :
    checkAssignment infer scopes name (value.bare id) (n.bare id) =
      (checkAssignment infer scopes name value n).mapError Fault.unplaced := by
  unfold checkAssignment
  split
  · exact report_bare _ n
  · exact report_bare _ n
  · simp [hinfer, require_bare]

end Infer

theorem checkFunction_bare {check : Option Enclosing → Scopes → Node → Verdict}
    (hcheck : ∀ enclosing scopes n, check enclosing scopes (n.bare id) = (check enclosing scopes n).unplaced)
    (scopes : Scopes) (name : String) (params : List Node) (returns : Option String) (body n : Node) :
    checkFunction check scopes name (bares id params) returns (body.bare id) (n.bare id) =
      (checkFunction check scopes name params returns body n).unplaced := by
  unfold checkFunction
  rw [resolveParams_bare, resolveReturns_bare]
  cases params.mapM resolveParam with
  | error fault => rfl
  | ok types =>
    cases (returns.mapM fun type => resolveType (some type) n) with
    | error fault => rfl
    | ok returns =>
      simp only [mapError_ok, declare_bare]
      obtain ⟨scopes, answer⟩ := declare scopes name (.function types returns) n
      cases answer with
      | error fault => rfl
      | ok =>
        simp only [Verdict.unplaced, mapError_ok, checkBody_bare (hcheck (some ⟨name, returns⟩)), endsByReturn_bare]
        obtain ⟨inner, answer⟩ := checkBody (check (some ⟨name, returns⟩)) scopes.push params body
        cases answer with
        | error fault => rfl
        | ok =>
          cases returns with
          | none => rfl
          | some type =>
            cases endsByReturn body with
            | true => rfl
            | false => exact congrArg (Prod.mk inner.pop) (report_bare _ n)

/-- What a statement is answered, and the scopes it leaves, do not depend on positions. -/
theorem checkStatement_bare (depth : Nat) (enclosing : Option Enclosing) (scopes : Scopes) (n : Node) :
    checkStatement depth enclosing scopes (n.bare id) = (checkStatement depth enclosing scopes n).unplaced := by
  induction depth generalizing enclosing scopes n with
  | zero => rfl
  | succ depth ih =>
    have hinfer (n : Node) : infer scopes depth (n.bare id) = _ := infer_bare depth n
    cases n with
    | varDecl type name initializer position =>
      exact checkVariable_bare hinfer scopes type name initializer (.varDecl type name initializer position)
    | assignment name value position =>
      exact congrArg (Prod.mk scopes) (checkAssignment_bare hinfer scopes name value (.assignment name value position))
    | ifStmt condition body position => exact checkGuarded_bare (ih enclosing) hinfer scopes "if" condition body
    | whileStmt condition body position => exact checkGuarded_bare (ih enclosing) hinfer scopes "while" condition body
    | function name params returns body position =>
      exact checkFunction_bare ih scopes name params returns body (.function name params returns body position)
    | returnStmt value position =>
      exact congrArg (Prod.mk scopes) (checkReturn_bare hinfer enclosing value (.returnStmt value position))
    | display value position =>
      have hvalue : (fun _ => ()) <$> infer scopes depth (value.bare id) =
          ((fun _ => ()) <$> infer scopes depth value).mapError Fault.unplaced := by
        rw [hinfer, mapError_map]
      exact congrArg (Prod.mk scopes) hvalue
    | _ => rfl

end Typing

theorem Typing.check_bare (scopes : Typing.Scopes) (p : Node) :
    Typing.check scopes (p.bare id) = (Typing.check scopes p).unplaced := by
  unfold Typing.check
  rw [Node.programBody_bare]
  cases p.programBody with
  | error cause => rfl
  | ok body => exact Typing.checkEach_bare (Typing.checkStatement_bare _ none) scopes body

/-- Programs that differ in positions only are both accepted or both refused. -/
theorem checkProgram_of_bare {p q : Node} (h : p.bare id = q.bare id) (hp : checkProgram p = .ok ()) :
    checkProgram q = .ok () := by
  have hcheck := (Typing.check_bare .start p).symm.trans ((congrArg _ h).trans (Typing.check_bare .start q))
  have hanswer : (Typing.check .start p).2.mapError Typing.Fault.unplaced =
      (Typing.check .start q).2.mapError Typing.Fault.unplaced := congrArg Prod.snd hcheck
  have hok := Success.mapError_iff.mp hp
  rw [hok, Success.mapError_ok, eq_comm, Success.mapError_iff] at hanswer
  exact Success.mapError_iff.mpr hanswer

end TillLang
