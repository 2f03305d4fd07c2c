/-
  TillLang.Eval.World — what a run changes, and how it stops.

  A run has an arena of scopes, the texts it has displayed, a debug log, and what it has
  printed. The log is open until the end of the first run; after that debug lines are
  printed instead. A run stops with a result or for a cause, and whatever it changed
  before it stopped stays changed.
-/

import TillLang.Store.Arena

namespace TillLang.Eval

/-- Why a program fails at run time. -/
inductive Reason where
  | store (cause : Store.Fault)
  | returnOutside
  | stackExhausted
  | conditionType (got : String)
  | functionAsValue (name : String)
  | notOperand (got : String)
  | negationOperand (got : String)
  | unsupportedUnary (op : String)
  | notFunction (name : String)
  | argumentCount (function : String) (expected : Nat)
  | noResult (function : String)
  | resultMismatch (function : String) (cause : Value.Mismatch)
  | unsupportedOperands (op left right : String)
  | divisionByZero
  | unsupportedBinary (op : String)
  deriving DecidableEq, Repr

def Reason.message : Reason → String
  | .store cause => cause.message
  | .returnOutside => "'return' outside of a function"
  | .stackExhausted => "call stack exhausted"
  | .conditionType got => "condition must be Bool, got " ++ got
  | .functionAsValue name => "function " ++ name ++ " cannot be used as a value"
  | .notOperand got => "'!' expects Bool, got " ++ got
  | .negationOperand got => "'~' expects Num, got " ++ got
  | .unsupportedUnary op => "unsupported unary operator " ++ op
  | .notFunction name => name ++ " is not a function"
  | .argumentCount function expected =>
    function ++ " expects " ++ toString expected ++ " arguments"
  | .noResult function => "function " ++ function ++ " finished without returning a value"
  | .resultMismatch function cause =>
    "return type mismatch in function " ++ function ++ ": " ++ cause.message
  | .unsupportedOperands op left right =>
    "unsupported " ++ op ++ " for " ++ left ++ " and " ++ right
  | .divisionByZero => "division by zero"
  | .unsupportedBinary op => "unsupported binary operator " ++ op

/-- What keeps a part of a program from being carried through. -/
inductive Stop where
  | failure (reason : Reason) (position : Option Position)
  /-- A return, on its way to the call it ends. -/
  | returned (value : Value)
  | tooDeep
  /-- A loop went round more often than the bound on loops allows. -/
  | endless
  | notStatement (className : String)
  | notExpression (className : String)
  /-- A node lacks a part that is needed. -/
  | missingPart
  /-- A handle names no scope. -/
  | noScope
  /-- A name has no entry in a map that it is looked up in. -/
  | missingKey (name : String)
  /-- A logged argument is not a text. -/
  | notText (index : Nat) (typeName : String)
  | notProgram (cause : Node.NotProgram)

def failureMessage (reason : Reason) (position : Option Position) : String :=
  placed ("RuntimeError: " ++ reason.message) (position.map Position.text)

structure World where
  arena : Arena
  displayed : Array Json
  log : Array String
  logOpen : Bool
  printed : Array String

def World.start : World := ⟨.start, #[], #[], true, #[]⟩

/-- A part of a run: it ends with a result or a cause, and with a changed world. -/
def Run (α : Type) := World → Except Stop α × World

namespace Run

def pure (a : α) : Run α := fun w => (.ok a, w)

def bind (m : Run α) (f : α → Run β) : Run β := fun w =>
  match m w with
  | (.ok a, w) => f a w
  | (.error stop, w) => (.error stop, w)

instance : Monad Run where
  pure := pure
  bind := bind

def stop (cause : Stop) : Run α := fun w => (.error cause, w)

def fail (reason : Reason) (position : Option Position) : Run α :=
  stop (.failure reason position)

def storeStop : Store.Fault → Stop
  | .noScope => .noScope
  | .missing name => .missingKey name
  | .noType => .missingPart
  | cause => .failure (.store cause) none

def read (f : Arena → Except Store.Fault α) : Run α := fun w =>
  match f w.arena with
  | .ok a => (.ok a, w)
  | .error cause => (.error (storeStop cause), w)

def write (f : Arena → Except Store.Fault Arena) : Run Unit := fun w =>
  match f w.arena with
  | .ok arena => (.ok (), { w with arena })
  | .error cause => (.error (storeStop cause), w)

/-- Adds a line to the debug log, or prints it when the log is closed. -/
def log (line : String) : Run Unit := fun w =>
  if w.logOpen then (.ok (), { w with log := w.log.push line })
  else (.ok (), { w with printed := w.printed.push line })

def debug (level threshold : Nat) (line : Run String) : Run Unit :=
  if threshold ≤ level then do log (← line) else pure ()

def display (shown : Json) : Run Unit := fun w =>
  (.ok (), { w with
    displayed := w.displayed.push shown
    printed := w.printed.push shown.text })

/-- Runs a part with a scope of its own inside another one; however the part ends, its
scope is released. -/
def inChild (parent : Nat) (body : Nat → Run α) : Run α := fun w =>
  let (arena, handle) := w.arena.push parent
  let (result, w) := body handle { w with arena }
  (result, { w with arena := w.arena.release handle })

/-- Takes the value of a return for the result. -/
def catchReturn (m : Run Unit) : Run Value := fun w =>
  match m w with
  | (.ok (), w) => (.ok .unit, w)
  | (.error (.returned value), w) => (.ok value, w)
  | (.error stop, w) => (.error stop, w)

end Run

end TillLang.Eval
