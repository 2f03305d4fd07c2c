/-
  TillLang.Typing.Scope — what names stand for while a program is checked.

  A scope binds names to types of variables or to signatures of functions. Scopes are
  nested: a name means what the innermost scope that binds it says, and a scope binds a
  name at most once.
-/

import TillLang.Syntax.Basic

namespace TillLang

/-- The types of variables. -/
def primitiveTypes : List String := ["Num", "Char", "Bool", "Str"]

def isPrimitive (type : String) : Bool := primitiveTypes.contains type

namespace Typing

inductive Entry where
  | variable (type : String)
  | function (params : List String) (returns : Option String)
  deriving DecidableEq, Repr

def Entry.text : Entry → String
  | .variable type => type
  | .function params returns =>
    let signature := "(" ++ ", ".intercalate params ++ ")"
    match returns with
    | some type => signature ++ " -> " ++ type
    | none => signature

/-- Bindings in the order in which they were made. -/
abbrev Scope := List (String × Entry)

structure Scopes where
  inner : Scope
  /-- The enclosing scopes, from the nearest outward. -/
  outer : List Scope
  deriving DecidableEq, Repr

namespace Scopes

def start : Scopes := ⟨[], []⟩

/-- All scopes, from the innermost outward. -/
def toList (s : Scopes) : List Scope := s.inner :: s.outer

def push (s : Scopes) : Scopes := ⟨[], s.inner :: s.outer⟩

/-- Leaves the innermost scope; the outermost one is never left. -/
def pop (s : Scopes) : Scopes :=
  match s.outer with
  | [] => s
  | scope :: outer => ⟨scope, outer⟩

/-- Binds a name in the innermost scope, unless that scope binds it already. -/
def define? (s : Scopes) (name : String) (entry : Entry) : Option Scopes :=
  if (s.inner.lookup name).isSome then none
  else some { s with inner := s.inner ++ [(name, entry)] }

def lookup? (s : Scopes) (name : String) : Option Entry :=
  s.toList.findSome? (·.lookup name)

end Scopes

end Typing

end TillLang
