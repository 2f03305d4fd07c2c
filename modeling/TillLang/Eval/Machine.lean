/-
  TillLang.Eval.Machine — evaluation of expressions and execution of statements.

  A machine says how an expression is evaluated and a statement executed in a scope. The
  machine for a nesting depth is made from the machine for one level less: whatever is
  nested in an expression or a statement is left to that one, and at depth zero everything
  stops. A chain of binary operators that leans to the left is folded in a loop, its
  operands still from left to right, and does not count as nesting. A loop stops after a
  bounded number of rounds.
-/

import TillLang.Eval.World
import TillLang.Typing.Check

namespace TillLang.Eval

/-- How expressions and statements are carried out in the scope with a given handle. -/
structure Machine where
  evaluate : Node → Nat → Run Value
  execute : Node → Nat → Run Unit

/-- The level of detail of the debug log, and the bound on the rounds of a loop. -/
structure Settings where
  detail : Nat
  rounds : Nat

/-! ## Expressions -/

def applyUnary (op : String) (operand : Value) (position : Option Position) : Run Value :=
  if op = "!" then
    match operand with
    | .bool b => Run.pure (.bool !b)
    | _ => Run.fail (.notOperand operand.typeName) position
  else if op = "~" then
    match operand with
    | .num x => Run.pure (.num (-x))
    | _ => Run.fail (.negationOperand operand.typeName) position
  else Run.fail (.unsupportedUnary op) position

def applyArithmetic (op : String) (x y : Float) (position : Option Position) : Run Value :=
  if op = "+" then Run.pure (.num (x + y))
  else if op = "-" then Run.pure (.num (x - y))
  else if op = "*" then Run.pure (.num (x * y))
  else if op = "/" then
    if y == 0 then Run.fail .divisionByZero position else Run.pure (.num (x / y))
  else if op = "<" then Run.pure (.bool (x < y))
  else if op = ">" then Run.pure (.bool (x > y))
  else Run.fail (.unsupportedBinary op) position

def applyBinary (op : String) (left right : Value) (position : Option Position) : Run Value :=
  if op = "==" then Run.pure (.bool (left.same right))
  else
    match left, right with
    | .num x, .num y => applyArithmetic op x y position
    | _, _ => Run.fail (.unsupportedOperands op left.typeName right.typeName) position

/-- The texts of logged arguments, joined; every argument has to be a text. -/
def joinShown : Nat → List Json → Run (List String)
  | _, [] => Run.pure []
  | index, .str s :: rest => do return s :: (← joinShown (index + 1) rest)
  | index, j :: _ => Run.stop (.notText index j.typeName)

namespace Machine

def exhausted : Machine where
  evaluate _ _ := Run.stop .tooDeep
  execute _ _ := Run.stop .tooDeep

def evaluateAll (m : Machine) (scope : Nat) : List Node → Run (List Value)
  | [] => Run.pure []
  | node :: rest => do
    let value ← m.evaluate node scope
    let values ← m.evaluateAll scope rest
    return value :: values

def executeAll (m : Machine) (scope : Nat) : List Node → Run Unit
  | [] => Run.pure ()
  | node :: rest => do
    m.execute node scope
    m.executeAll scope rest

def executeBlock (m : Machine) (body : Node) (scope : Nat) : Run Unit :=
  match body.statements? with
  | some statements => m.executeAll scope statements
  | none => Run.stop .missingPart

/-- Binds parameters to arguments in the scope of a call. -/
def bindParams (scope : Nat) : List Node → List Value → Run Unit
  | param :: params, arg :: args =>
    match param.declared? with
    | some (type, name) => do
      Run.write (·.declare scope name type arg)
      bindParams scope params args
    | none => Run.stop .missingPart
  | _, _ => Run.pure ()

/-- The result of a call that has ended with `value`. -/
def resultOf (closure : Closure) (value : Value) (position : Option Position) : Run Value :=
  match closure.returns with
  | none => Run.pure .unit
  | some type =>
    if value.isUnit then Run.fail (.noResult closure.name) position
    else match value.check type with
      | .ok () => Run.pure value
      | .error cause => Run.fail (.resultMismatch closure.name cause) position

def logCall (settings : Settings) (closure : Closure) (args : List Value) : Run Unit :=
  Run.debug settings.detail 1 do
    let texts ← joinShown 0 (args.map Value.shown)
    return "call " ++ closure.name ++ "(" ++ ", ".intercalate texts ++ ")"

/-- Calls a function: its parameters and its body share a scope inside the one it was
declared in. -/
def call (m : Machine) (settings : Settings) (callee : String) (function : Value)
    (args : List Value) (position : Option Position) : Run Value :=
  match function with
  | .function closure =>
    if args.length ≠ closure.params.length then
      Run.fail (.argumentCount closure.name closure.params.length) position
    else do
      logCall settings closure args
      let value ← Run.inChild closure.scope fun scope => do
        bindParams scope closure.params args
        Run.catchReturn (m.executeBlock closure.body scope)
      resultOf closure value position
  | _ => Run.fail (.notFunction callee) position

/-- Applies the operators of a chain one after the other, each to the value so far and its
right operand. -/
def foldJoints (m : Machine) (scope : Nat) : Value → List Joint → Run Value
  | value, [] => Run.pure value
  | value, joint :: rest => do
    let right ← m.evaluate joint.right scope
    let value ← applyBinary joint.op value right joint.position
    m.foldJoints scope value rest

def evaluateNode (m : Machine) (settings : Settings) (node : Node) (scope : Nat) : Run Value :=
  match node with
  | .literal value _ => Run.pure (.ofLiteral value)
  | .identifier name position => do
    match ← Run.read (·.get scope name) with
    | .function _ => Run.fail (.functionAsValue name) position
    | value => Run.pure value
  | .unary op operand position => do
    let value ← m.evaluate operand scope
    applyUnary op value position
  | .binary .. => do
    let (first, joints) := node.spine
    let value ← m.evaluate first scope
    m.foldJoints scope value joints
  | .call callee args position => do
    let function ← Run.read (·.get scope callee)
    let values ← m.evaluateAll scope args
    m.call settings callee function values position
  | node => Run.stop (.notExpression node.className)

/-! ## Statements -/

/-- Evaluates an expression that may be missing; `missing` is the value then. -/
def evaluateOr (m : Machine) (missing : Value) (node : Node) (scope : Nat) : Run Value :=
  if node.isAbsent then Run.pure missing else m.evaluate node scope

def condition (m : Machine) (node : Node) (scope : Nat) : Run Bool := do
  match ← m.evaluate node scope with
  | .bool b => Run.pure b
  | value => Run.fail (.conditionType value.typeName) (node.position?.getD none)

/-- Goes round a loop while its condition holds, at most `rounds` times. -/
def loop (condition : Run Bool) (body : Run Unit) : Nat → Run Unit
  | 0 => Run.stop .endless
  | rounds + 1 => do
    if ← condition then
      body
      loop condition body rounds
    else Run.pure ()

def loggedCondition (m : Machine) (settings : Settings) (keyword : String) (node : Node)
    (scope : Nat) : Run Bool := do
  let holds ← m.condition node scope
  Run.debug settings.detail 3
    (Run.pure (keyword ++ " condition -> " ++ (Value.bool holds).shown.text))
  return holds

def executeNode (m : Machine) (settings : Settings) (node : Node) (scope : Nat) : Run Unit :=
  match node with
  | .varDecl type name initializer _ => do
    let value ← m.evaluateOr .none initializer scope
    Run.write (·.declare scope name type value)
    Run.debug settings.detail 2 do
      let stored ← Run.read (·.get scope name)
      return "declare " ++ name ++ ": " ++ type.getD "" ++ " = " ++ stored.inspect
  | .assignment name value _ => do
    let value ← m.evaluate value scope
    Run.write (·.set scope name value)
    Run.debug settings.detail 2 (Run.pure ("assign " ++ name ++ " = " ++ value.inspect))
  | .function name params returns body _ => do
    Run.write (·.declareFunction scope name ⟨name, params, returns, body, scope⟩)
    Run.debug settings.detail 2 (Run.pure ("define function " ++ name))
  | .ifStmt condition body _ => do
    if ← m.loggedCondition settings "if" condition scope then
      Run.inChild scope (m.executeBlock body)
    else Run.pure ()
  | .whileStmt condition body _ =>
    loop (m.loggedCondition settings "while" condition scope)
      (Run.inChild scope (m.executeBlock body)) settings.rounds
  | .returnStmt value _ => do
    let value ← m.evaluateOr .unit value scope
    Run.stop (.returned value)
  | .display value _ => do
    let value ← m.evaluate value scope
    Run.debug settings.detail 1 (Run.pure ("display " ++ value.shown.inspect))
    Run.display value.shown
  | node => Run.stop (.notStatement node.className)

/-- The machine one level above another. -/
def above (settings : Settings) (m : Machine) : Machine where
  evaluate := m.evaluateNode settings
  execute := m.executeNode settings

/-- The machine for a nesting depth. -/
def atDepth (settings : Settings) : Nat → Machine
  | 0 => exhausted
  | depth + 1 => (atDepth settings depth).above settings

end Machine

/-! ## Programs -/

/-- How a run of a whole program ends: a return outside of a function fails, and so does
nesting past the limit. -/
def settle : Except Stop Unit → Except Stop Unit
  | .error (.returned _) => .error (.failure .returnOutside none)
  | .error .tooDeep => .error (.failure .stackExhausted none)
  | result => result

/-- Runs a program in a world, nested at most `depth` deep. The log is closed after it. -/
def runTo (settings : Settings) (depth : Nat) (program : Node) : Run Unit := fun w =>
  let (result, w) :=
    match program.programBody with
    | .ok body => (Machine.atDepth settings depth).executeAll Arena.global body w
    | .error cause => (.error (.notProgram cause), w)
  (settle result, { w with logOpen := false })

/-- The bound on the rounds of a loop: more than can be gone round. -/
def maxRounds : Nat := 1000000000000000000

def run (detail : Nat) (program : Node) : Run Unit :=
  runTo ⟨detail, maxRounds⟩ Node.nestingLimit program

end TillLang.Eval
