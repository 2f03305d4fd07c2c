/-
  TillLang.Store.Value — the values a program computes with.

  The language has numbers, characters, truth values and texts, the unit that a call
  without a result gives, and functions, which are bound to names but never handed around.
  A literal of a tree loaded from JSON may also hold a value of no type of the language,
  which is kept as it is. The payload of a character is a text when it comes from source,
  and whatever the literal holds when it comes from JSON.
-/

import TillLang.Typing.Scope

namespace TillLang

/-- A declared function and the handle of the scope it was declared in. -/
structure Closure where
  name : String
  params : List Node
  returns : Option String
  body : Node
  scope : Nat

inductive Value where
  | num (x : Float)
  | char (payload : Json)
  | bool (b : Bool)
  | str (s : String)
  | unit
  | function (closure : Closure)
  /-- A value of no type of the language. -/
  | foreign (j : Json)

namespace Value

/-- The value a JSON value stands for. -/
def ofJson : Json → Value
  | .bool b => .bool b
  | .float x => .num x
  | .str s => .str s
  | j => .foreign j

def ofLiteral : Literal → Value
  | .num x => .num x
  | .other kind value _ => if kind = "Char" then .char value else ofJson value

/-- No value: a declaration takes it for a missing initial value. -/
def none : Value := .foreign .null

def isNone : Value → Bool
  | .foreign .null => true
  | _ => false

def isUnit : Value → Bool
  | .unit => true
  | _ => false

def typeName : Value → String
  | .num _ => "Num"
  | .char _ => "Char"
  | .bool _ => "Bool"
  | .str _ => "Str"
  | .unit => "Unit"
  | .function _ => "FunctionValue"
  | .foreign j => j.typeName

def functionText (c : Closure) : String := "<function " ++ c.name ++ ">"

/-- What is displayed for a value: a text, except for a character whose payload is none. -/
def shown : Value → Json
  | .num x => .str (Decimal.numeral x)
  | .char payload => payload
  | .bool b => .str (if b then "true" else "false")
  | .str s => .str s
  | .unit => .str "unit"
  | .function c => .str (functionText c)
  | .foreign j => .str j.text

/-- A value in logs. -/
def inspect : Value → String
  | .num x => Decimal.inspectNumber x
  | .char payload => "Char(" ++ payload.inspect ++ ")"
  | .bool b => (Json.bool b).inspect
  | .str s => Text.inspect s
  | .unit => "Unit"
  | .function c => functionText c
  | .foreign j => j.inspect

/-- Equality of values: both are of one type and equal there. Functions are never
compared. -/
def same : Value → Value → Bool
  | .num x, .num y => x == y
  | .char a, .char b => a.same b
  | .bool a, .bool b => a == b
  | .str s, .str t => s == t
  | .unit, .unit => true
  | .foreign a, .foreign b => a.typeName == b.typeName && a.same b
  | _, _ => false

/-- The word messages use for what a value is made of. -/
def className : Value → String
  | .num _ => "float"
  | .char _ => "CharVal"
  | .bool _ => "bool"
  | .str _ => "str"
  | .unit => "UnitVal"
  | .function _ => "FunctionValue"
  | .foreign j => j.typeName

/-! ## Types -/

inductive Mismatch where
  | unknownType (type : String)
  | expected (type got : String)
  deriving DecidableEq, Repr

def Mismatch.message : Mismatch → String
  | .unknownType type => "unknown type " ++ type
  | .expected type got => "expected " ++ type ++ ", got " ++ got

/-- A value has to be of a type. -/
def check (value : Value) (type : String) : Except Mismatch Unit :=
  if !isPrimitive type then .error (.unknownType type)
  else if value.typeName = type then .ok ()
  else .error (.expected type value.typeName)

/-- The value of a variable declared without an initial one. -/
def zero (type : String) : Except Mismatch Value :=
  if type = "Num" then .ok (.num 0)
  else if type = "Char" then .ok (.char (.str "\x00"))
  else if type = "Bool" then .ok (.bool false)
  else if type = "Str" then .ok (.str "")
  else .error (.unknownType type)

end Value

end TillLang
