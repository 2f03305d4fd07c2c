/-
  TillLang.Store.Arena — the scopes of a running program.

  Scopes live in an arena and are named by their place in it. A scope knows the handle of
  the scope around it, and a name is looked up along those handles. Scopes are released in
  the order opposite to that in which they were made, so releasing one cuts the arena off
  at its handle.
-/

import TillLang.Store.Value

namespace TillLang

namespace Store

/-- Puts a value under a key: in the place of the one that is there, or else behind all others. -/
def put (entries : List (String × α)) (key : String) (value : α) : List (String × α) :=
  if (entries.lookup key).isSome then entries.map fun e => if e.1 = key then (key, value) else e
  else entries ++ [(key, value)]

/-- One scope: the handle of the scope around it, and the values and the declared types of its names.
A function has no type. -/
structure Scope where
  parent : Option Nat
  values : List (String × Value)
  types : List (String × Option String)

def Scope.binds (s : Scope) (name : String) : Bool := (s.values.lookup name).isSome

def Scope.setValue (s : Scope) (name : String) (value : Value) : Scope :=
  { s with values := put s.values name value }

def Scope.add (s : Scope) (name : String) (type : Option String) (value : Value) : Scope :=
  { s with values := put s.values name value, types := put s.types name type }

/-- Why an access to the arena fails. -/
inductive Fault where
  | undefined (name : String)
  | undeclaredTarget (name : String)
  | functionTarget (name : String)
  | cannotAssign (name : String) (cause : Value.Mismatch)
  | alreadyDeclared (name : String)
  | cannotDeclare (name : String) (cause : Value.Mismatch)
  | functionDeclared (name : String)
  /-- A handle names no scope. -/
  | noScope
  /-- A name has no entry in a map that it is looked up in. -/
  | missing (name : String)
  /-- A declaration without a type. -/
  | noType
  deriving DecidableEq, Repr

def Fault.message : Fault → String
  | .undefined name => "undefined variable " ++ name
  | .undeclaredTarget name => "assignment to undeclared variable " ++ name
  | .functionTarget name => "cannot assign to function " ++ name
  | .cannotAssign name cause => "cannot assign to " ++ name ++ ": " ++ cause.message
  | .alreadyDeclared name => "variable " ++ name ++ " already declared"
  | .cannotDeclare name cause => "cannot declare " ++ name ++ ": " ++ cause.message
  | .functionDeclared name => "function " ++ name ++ " already declared"
  | .noScope => "no such scope"
  | .missing name => Text.inspect name
  | .noType => "no type"

end Store

open Store (Scope Fault)

structure Arena where
  scopes : List Scope

namespace Arena

/-- The handle of the outermost scope. -/
def global : Nat := 0

def start : Arena := ⟨[⟨none, [], []⟩]⟩

/-- Makes a scope inside another one, and gives its handle. -/
def push (a : Arena) (parent : Nat) : Arena × Nat :=
  (⟨a.scopes ++ [⟨some parent, [], []⟩]⟩, a.scopes.length)

/-- Releases a scope and all that were made after it. -/
def release (a : Arena) (handle : Nat) : Arena := ⟨a.scopes.take handle⟩

def scope (a : Arena) (handle : Nat) : Except Fault Scope :=
  match a.scopes[handle]? with
  | some s => .ok s
  | none => .error .noScope

/-- The scope that binds a name, along at most `steps` scopes from `handle` outward. -/
def resolveIn (a : Arena) (name : String) : Nat → Nat → Except Fault (Option Nat)
  | 0, _ => .ok none
  | steps + 1, handle => do
    let s ← a.scope handle
    if s.binds name then return some handle
    match s.parent with
    | some parent => a.resolveIn name steps parent
    | none => return none

/-- The handle of the innermost scope around `handle` that binds a name. A walk of more
scopes than there are has come back to one it left without finding the name. -/
def resolve (a : Arena) (handle : Nat) (name : String) : Except Fault (Option Nat) :=
  a.resolveIn name (a.scopes.length + 1) handle

def get (a : Arena) (handle : Nat) (name : String) : Except Fault Value := do
  match ← a.resolve handle name with
  | none => throw (.undefined name)
  | some found =>
    match (← a.scope found).values.lookup name with
    | none => throw (.missing name)
    | some value => return value

def replace (a : Arena) (handle : Nat) (s : Scope) : Arena := ⟨a.scopes.set handle s⟩

/-- Gives a variable another value of its type. -/
def set (a : Arena) (handle : Nat) (name : String) (value : Value) : Except Fault Arena := do
  match ← a.resolve handle name with
  | none => throw (.undeclaredTarget name)
  | some found =>
    let s ← a.scope found
    match s.types.lookup name with
    | none => throw (.missing name)
    | some none => throw (.functionTarget name)
    | some (some type) =>
      match value.check type with
      | .error cause => throw (.cannotAssign name cause)
      | .ok () => return a.replace found (s.setValue name value)

/-- The value a declaration gives: without an initial value it is the zero of the type. -/
def initial (type : String) (value : Value) : Except Value.Mismatch Value := do
  let value ← if value.isNone then Value.zero type else pure value
  value.check type
  return value

def declare (a : Arena) (handle : Nat) (name : String) (type : Option String) (value : Value) :
    Except Fault Arena := do
  let s ← a.scope handle
  if s.binds name then throw (.alreadyDeclared name)
  match type with
  | none => throw .noType
  | some type =>
    match initial type value with
    | .error cause => throw (.cannotDeclare name cause)
    | .ok value => return a.replace handle (s.add name (some type) value)

def declareFunction (a : Arena) (handle : Nat) (name : String) (closure : Closure) :
    Except Fault Arena := do
  let s ← a.scope handle
  if s.binds name then throw (.functionDeclared name)
  return a.replace handle (s.add name none (.function closure))

end Arena

end TillLang
