/-
  TillLang.Location — places in a source text, and the positions tree nodes carry.

  A location is a line and a column, both counted from one. A node keeps its position as
  two JSON values: a parser writes the numbers of a location there, and a tree loaded
  from JSON keeps whatever two values it was given.
-/

import TillLang.Json.Basic

namespace TillLang

/-- A line and a column of a source text, counted from one. -/
structure Location where
  line : Nat
  column : Nat
  deriving DecidableEq, Repr

def Location.text (l : Location) : String := toString l.line ++ ":" ++ toString l.column

/-- Where a node comes from. -/
structure Position where
  line : Json
  column : Json

def Position.text (p : Position) : String := p.line.text ++ ":" ++ p.column.text

/-- The position that names a location. -/
def Location.position (l : Location) : Position := ⟨.nat l.line, .nat l.column⟩

/-- A reason with the place it applies to, if one is known. -/
def placed (reason : String) (place : Option String) : String :=
  match place with
  | some p => reason ++ " at " ++ p
  | none => reason

end TillLang
