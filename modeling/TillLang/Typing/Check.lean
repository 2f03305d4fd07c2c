/-
  TillLang.Typing.Check — the static checker.

  A program is walked once. Names are bound where they are declared, a function before its
  body so that it may call itself; the bodies of functions, `if` and `while` have scopes
  of their own. The first violation is reported with the position of the node it concerns.
  A chain of binary operators that leans to the left is walked in a loop and does not
  count as nesting; everything else that nests past the limit is refused at the innermost
  statement around it.
-/

import TillLang.Syntax.Basic
import TillLang.Typing.Scope

namespace TillLang

/-- One operator of a chain that leans to the left. -/
structure Joint where
  op : String
  left : Node
  right : Node
  position : Option Position

/-- The leftmost operand of a chain of binary operators, and its operators from there on,
followed by `later`. -/
def Node.spineOnto (later : List Joint) : Node → Node × List Joint
  | .binary op left right position => left.spineOnto (⟨op, left, right, position⟩ :: later)
  | node => (node, later)

/-- The leftmost operand of a chain of binary operators, and its operators from there on. -/
def Node.spine (node : Node) : Node × List Joint := node.spineOnto []

namespace Typing

/-! ## Violations -/

/-- What a type is required for. -/
inductive Context where
  | initializer (name : String)
  | assigned (name : String)
  | condition (keyword : String)
  | operand (op : String)
  | leftOperand (op : String)
  | rightOperand (op : String)
  | returnValue (function : String)
  | argument (index : Nat) (function : String)
  deriving DecidableEq, Repr

def quoted (name : String) : String := "'" ++ name ++ "'"

def Context.text : Context → String
  | .initializer name => "initializer of " ++ quoted name
  | .assigned name => "value assigned to " ++ quoted name
  | .condition keyword => keyword ++ " condition"
  | .operand op => "operand of " ++ quoted op
  | .leftOperand op => "left operand of " ++ quoted op
  | .rightOperand op => "right operand of " ++ quoted op
  | .returnValue function => "return value of " ++ quoted function
  | .argument index function => "argument " ++ toString index ++ " of " ++ quoted function

inductive Reason where
  | unknownType (type : String)
  | alreadyDeclared (name : String)
  | mismatch (context : Context) (expected got : String)
  | undeclaredTarget (name : String)
  | functionTarget (name : String)
  | unexpectedStatement (className : String)
  | unexpectedExpression (className : String)
  | mayNotReturn (function type : String)
  | returnOutside
  | needlessValue (function : String)
  | missingValue (function type : String)
  | unknownIdentifier (name : String)
  | functionAsValue (name : String)
  | unknownUnary (op : String)
  | unknownBinary (op : String)
  | undeclaredFunction (name : String)
  | notFunction (name : String)
  | argumentCount (function : String) (expected got : Nat)
  | noResult (function : String)
  | tooDeep
  deriving DecidableEq, Repr

def Reason.message : Reason → String
  | .unknownType type =>
    "unknown type " ++ quoted type ++ "; expected one of " ++ ", ".intercalate primitiveTypes
  | .alreadyDeclared name => quoted name ++ " is already declared in this scope"
  | .mismatch context expected got =>
    context.text ++ " expected to be of type " ++ expected ++ ", but got " ++ got
  | .undeclaredTarget name => "assignment to undeclared variable " ++ quoted name
  | .functionTarget name => "cannot assign to function " ++ quoted name
  | .unexpectedStatement className => "unexpected statement " ++ className
  | .unexpectedExpression className => "unexpected expression " ++ className
  | .mayNotReturn function type =>
    "function " ++ quoted function ++ " may finish without returning a " ++ type ++ " value"
  | .returnOutside => "'return' outside of a function"
  | .needlessValue function =>
    "function " ++ quoted function ++ " has no return type but returns a value"
  | .missingValue function type =>
    "function " ++ quoted function ++ " must return a " ++ type ++ " value"
  | .unknownIdentifier name => "unknown identifier " ++ quoted name
  | .functionAsValue name => "function " ++ quoted name ++ " cannot be used as a value"
  | .unknownUnary op => "unknown unary operator " ++ quoted op
  | .unknownBinary op => "unknown binary operator " ++ quoted op
  | .undeclaredFunction name => "call to undeclared function " ++ quoted name
  | .notFunction name => quoted name ++ " is a variable, not a function"
  | .argumentCount function expected got =>
    "function " ++ quoted function ++ " expects " ++ toString expected ++
      " arguments but got " ++ toString got
  | .noResult function =>
    "function " ++ quoted function ++ " has no return value and cannot be used in an expression"
  | .tooDeep => "expression is nested too deeply"

inductive Fault where
  | violation (reason : Reason) (position : Option Position)
  | missingPart
  | notProgram (cause : Node.NotProgram)
  /-- The nesting limit was reached inside a statement. -/
  | tooDeep

def violationMessage (reason : Reason) (position : Option Position) : String :=
  placed ("TypeError: " ++ reason.message) (position.map Position.text)

def report (reason : Reason) (node : Node) : Except Fault α :=
  match node.position? with
  | some position => .error (.violation reason position)
  | none => .error .missingPart

/-- Two types have to be the same. -/
def require (context : Context) (expected got : String) (node : Node) : Except Fault Unit :=
  if expected = got then .ok () else report (.mismatch context expected got) node

/-- A type that is written at a node has to be one of the types of variables. -/
def resolveType (type : Option String) (node : Node) : Except Fault String :=
  match type with
  | none => .error .missingPart
  | some type => if isPrimitive type then .ok type else report (.unknownType type) node

/-! ## Expressions -/

def inferIdentifier (scopes : Scopes) (name : String) (node : Node) : Except Fault String :=
  match scopes.lookup? name with
  | none => report (.unknownIdentifier name) node
  | some (.function ..) => report (.functionAsValue name) node
  | some (.variable type) => .ok type

def inferUnary (op got : String) (operand node : Node) : Except Fault String :=
  if op = "!" then do require (.operand op) "Bool" got operand; return "Bool"
  else if op = "~" then do require (.operand op) "Num" got operand; return "Num"
  else report (.unknownUnary op) node

def isArithmetic (op : String) : Bool := ["+", "-", "*", "/"].contains op

def isOrdering (op : String) : Bool := ["<", ">"].contains op

def inferBinary (joint : Joint) (left right : String) : Except Fault String :=
  if isArithmetic joint.op || isOrdering joint.op then do
    require (.leftOperand joint.op) "Num" left joint.left
    require (.rightOperand joint.op) "Num" right joint.right
    return if isArithmetic joint.op then "Num" else "Bool"
  else if joint.op = "==" then do
    require (.rightOperand joint.op) left right joint.right
    return "Bool"
  else
    report (.unknownBinary joint.op) (.binary joint.op joint.left joint.right joint.position)

/-- Arguments have to be of the types of the parameters; `index` is the number of the
first. -/
def inferArguments (infer : Node → Except Fault String) (callee : String) :
    Nat → List Node → List String → Except Fault Unit
  | index, arg :: args, type :: types => do
    let got ← infer arg
    require (.argument index callee) type got arg
    inferArguments infer callee (index + 1) args types
  | _, _, _ => .ok ()

def inferCall (infer : Node → Except Fault String) (scopes : Scopes) (callee : String)
    (args : List Node) (node : Node) : Except Fault String :=
  match scopes.lookup? callee with
  | none => report (.undeclaredFunction callee) node
  | some (.variable _) => report (.notFunction callee) node
  | some (.function params returns) =>
    if args.length ≠ params.length then
      report (.argumentCount callee params.length args.length) node
    else do
      inferArguments infer callee 1 args params
      match returns with
      | none => report (.noResult callee) node
      | some type => return type

/-- The type of an expression, nested at most `depth` deep. -/
def infer (scopes : Scopes) : Nat → Node → Except Fault String
  | 0, _ => .error .tooDeep
  | depth + 1, node =>
    match node with
    | .literal value _ => .ok value.kind
    | .identifier name _ => inferIdentifier scopes name node
    | .unary op operand _ => do
      let got ← infer scopes depth operand
      inferUnary op got operand node
    | .binary .. => do
      let (first, joints) := node.spine
      let left ← infer scopes depth first
      joints.foldlM (fun left joint => do
        let right ← infer scopes depth joint.right
        inferBinary joint left right) left
    | .call callee args _ => inferCall (infer scopes depth) scopes callee args node
    | node => report (.unexpectedExpression node.className) node

/-! ## Statements -/

/-- The function whose body is checked. -/
structure Enclosing where
  name : String
  returns : Option String
  deriving DecidableEq, Repr

/-- The scopes after a check, and its answer. What was declared before a violation stays
declared. -/
abbrev Verdict := Scopes × Except Fault Unit

/-- An answer that leaves the scopes as they are. -/
def Verdict.keep (scopes : Scopes) (answer : Except Fault Unit) : Verdict := (scopes, answer)

def declare (scopes : Scopes) (name : String) (entry : Entry) (node : Node) : Verdict :=
  match scopes.define? name entry with
  | some scopes => (scopes, .ok ())
  | none => (scopes, report (.alreadyDeclared name) node)

/-- Checks statements one after the other and blames nesting past the limit on the one it
was found in. -/
def checkEach (check : Scopes → Node → Verdict) (scopes : Scopes) : List Node → Verdict
  | [] => (scopes, .ok ())
  | node :: rest =>
    match check scopes node with
    | (scopes, .ok ()) => checkEach check scopes rest
    | (scopes, .error .tooDeep) => (scopes, report .tooDeep node)
    | (scopes, .error fault) => (scopes, .error fault)

/-- Checks the statements of a block in a scope of its own. -/
def checkBlock (check : Scopes → Node → Verdict) (scopes : Scopes) (body : Node) : Verdict :=
  match body.statements? with
  | none => (scopes.push.pop, .error .missingPart)
  | some statements =>
    let (inner, answer) := checkEach check scopes.push statements
    (inner.pop, answer)

def resolveParam (param : Node) : Except Fault String :=
  match param.declared? with
  | none => .error .missingPart
  | some (type, _) => resolveType type param

def declareParam (scopes : Scopes) (param : Node) : Verdict :=
  match param.declared? with
  | some (some type, name) => declare scopes name (.variable type) param
  | _ => (scopes, .error .missingPart)

/-- Checks a list of parameters and then statements, in the scope of a function. -/
def checkBody (check : Scopes → Node → Verdict) (scopes : Scopes) (params : List Node)
    (body : Node) : Verdict :=
  match checkEach declareParam scopes params with
  | (scopes, .error fault) => (scopes, .error fault)
  | (scopes, .ok ()) =>
    match body.statements? with
    | none => (scopes, .error .missingPart)
    | some statements => checkEach check scopes statements

/-- Whether one of the statements of a block is a return. -/
def endsByReturn (body : Node) : Bool := (body.statements?.getD []).any Node.isReturn

def checkFunction (check : Option Enclosing → Scopes → Node → Verdict) (scopes : Scopes)
    (name : String) (params : List Node) (returns : Option String) (body node : Node) : Verdict :=
  match params.mapM resolveParam, returns.mapM fun type => resolveType (some type) node with
  | .error fault, _ => (scopes, .error fault)
  | .ok _, .error fault => (scopes, .error fault)
  | .ok types, .ok returns =>
    match declare scopes name (.function types returns) node with
    | (scopes, .error fault) => (scopes, .error fault)
    | (scopes, .ok ()) =>
      match checkBody (check (some ⟨name, returns⟩)) scopes.push params body with
      | (inner, .error fault) => (inner.pop, .error fault)
      | (inner, .ok ()) =>
        (inner.pop, match returns with
          | some type =>
            if endsByReturn body then .ok () else report (.mayNotReturn name type) node
          | none => .ok ())

def checkReturn (infer : Node → Except Fault String) (enclosing : Option Enclosing)
    (value node : Node) : Except Fault Unit :=
  match enclosing with
  | none => report .returnOutside node
  | some function =>
    match function.returns with
    | none => if value.isAbsent then .ok () else report (.needlessValue function.name) node
    | some type =>
      if value.isAbsent then report (.missingValue function.name type) node
      else do
        let got ← infer value
        require (.returnValue function.name) type got value

def checkVariable (infer : Node → Except Fault String) (scopes : Scopes) (type : Option String)
    (name : String) (initializer node : Node) : Verdict :=
  let declared : Except Fault String := do
    let type ← resolveType type node
    if !initializer.isAbsent then
      let got ← infer initializer
      require (.initializer name) type got initializer
    return type
  match declared with
  | .error fault => (scopes, .error fault)
  | .ok type => declare scopes name (.variable type) node

def checkAssignment (infer : Node → Except Fault String) (scopes : Scopes) (name : String)
    (value node : Node) : Except Fault Unit :=
  match scopes.lookup? name with
  | none => report (.undeclaredTarget name) node
  | some (.function ..) => report (.functionTarget name) node
  | some (.variable type) => do
    let got ← infer value
    require (.assigned name) type got value

def checkGuarded (infer : Node → Except Fault String) (check : Scopes → Node → Verdict)
    (scopes : Scopes) (keyword : String) (condition body : Node) : Verdict :=
  match (do let got ← infer condition; require (.condition keyword) "Bool" got condition) with
  | .error fault => (scopes, .error fault)
  | .ok () => checkBlock check scopes body

/-- Checks a statement, nested at most `depth` deep. -/
def checkStatement : Nat → Option Enclosing → Scopes → Node → Verdict
  | 0, _, scopes, _ => (scopes, .error .tooDeep)
  | depth + 1, enclosing, scopes, node =>
    match node with
    | .varDecl type name initializer _ =>
      checkVariable (infer scopes depth) scopes type name initializer node
    | .assignment name value _ =>
      .keep scopes (checkAssignment (infer scopes depth) scopes name value node)
    | .ifStmt condition body _ =>
      checkGuarded (infer scopes depth) (checkStatement depth enclosing) scopes "if" condition body
    | .whileStmt condition body _ =>
      checkGuarded (infer scopes depth) (checkStatement depth enclosing) scopes "while" condition
        body
    | .function name params returns body _ =>
      checkFunction (checkStatement depth) scopes name params returns body node
    | .returnStmt value _ =>
      .keep scopes (checkReturn (infer scopes depth) enclosing value node)
    | .display value _ => .keep scopes ((fun _ => ()) <$> infer scopes depth value)
    | node => .keep scopes (report (.unexpectedStatement node.className) node)

/-- Checks statements outside of any function, nested at most `depth` deep. -/
def checkStatements (depth : Nat) (scopes : Scopes) (statements : List Node) : Verdict :=
  checkEach (checkStatement depth none) scopes statements

/-- Checks a program in scopes that may hold earlier declarations. -/
def check (scopes : Scopes) (program : Node) : Verdict :=
  match program.programBody with
  | .error cause => (scopes, .error (.notProgram cause))
  | .ok body => checkStatements Node.nestingLimit scopes body

end Typing

end TillLang
