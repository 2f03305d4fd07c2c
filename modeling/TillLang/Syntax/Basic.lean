/-
  TillLang.Syntax.Basic — syntax trees.

  There is one type of nodes. A parser only builds trees whose nodes are in their places;
  a tree loaded from JSON may hold any node in any place, or none where one is due, which
  `Node.absent` stands for. A number literal holds a double and every other literal a JSON
  value, whatever its kind says.

  Reading a part that a node does not have is answered by `none` here; what such a node
  means is for the checker, the printer and the evaluator to say.
-/

import TillLang.Location

namespace TillLang

def numKind : String := "Num"

inductive Literal where
  | num (x : Float)
  | other (kind : String) (value : Json) (notNum : kind ≠ numKind)

namespace Literal

/-- The kind a literal is given by the text of a type. -/
def kind : Literal → String
  | .num _ => numKind
  | .other kind _ _ => kind

def value : Literal → Json
  | .num x => .float x
  | .other _ value _ => value

def str (s : String) : Literal := .other "Str" (.str s) (by decide)

def char (s : String) : Literal := .other "Char" (.str s) (by decide)

def bool (b : Bool) : Literal := .other "Bool" (.bool b) (by decide)

end Literal

inductive Node where
  /-- No node. -/
  | absent
  | program (body : List Node) (position : Option Position)
  | block (statements : List Node) (position : Option Position)
  | varDecl (type : Option String) (name : String) (initializer : Node)
      (position : Option Position)
  | param (type : Option String) (name : String) (position : Option Position)
  | function (name : String) (params : List Node) (returns : Option String) (body : Node)
      (position : Option Position)
  | ifStmt (condition body : Node) (position : Option Position)
  | whileStmt (condition body : Node) (position : Option Position)
  | assignment (name : String) (value : Node) (position : Option Position)
  | returnStmt (value : Node) (position : Option Position)
  | display (value : Node) (position : Option Position)
  | binary (op : String) (left right : Node) (position : Option Position)
  | unary (op : String) (operand : Node) (position : Option Position)
  | literal (value : Literal) (position : Option Position)
  | identifier (name : String) (position : Option Position)
  | call (callee : String) (args : List Node) (position : Option Position)
  deriving Inhabited

namespace Node

/-- The word for the class of a node in messages and in JSON. -/
def className : Node → String
  | .absent => "NoneType"
  | .program .. => "Program"
  | .block .. => "Block"
  | .varDecl .. => "VarDecl"
  | .param .. => "Param"
  | .function .. => "FunctionDecl"
  | .ifStmt .. => "IfStmt"
  | .whileStmt .. => "WhileStmt"
  | .assignment .. => "Assignment"
  | .returnStmt .. => "ReturnStmt"
  | .display .. => "DisplayStmt"
  | .binary .. => "BinaryExpr"
  | .unary .. => "UnaryExpr"
  | .literal .. => "Literal"
  | .identifier .. => "Identifier"
  | .call .. => "Call"

/-- The position of a node, which may be unknown; no node has none. -/
def position? : Node → Option (Option Position)
  | .absent => none
  | .program _ p | .block _ p | .varDecl _ _ _ p | .param _ _ p | .function _ _ _ _ p
  | .ifStmt _ _ p | .whileStmt _ _ p | .assignment _ _ p | .returnStmt _ p | .display _ p
  | .binary _ _ _ p | .unary _ _ p | .literal _ p | .identifier _ p | .call _ _ p => some p

def statements? : Node → Option (List Node)
  | .block statements _ => some statements
  | _ => none

/-- The declared type, if it is given, and the name of a node that declares a variable. -/
def declared? : Node → Option (Option String × String)
  | .varDecl type name _ _ | .param type name _ => some (type, name)
  | _ => none

def isAbsent : Node → Bool
  | .absent => true
  | _ => false

def isReturn : Node → Bool
  | .returnStmt .. => true
  | _ => false

inductive NotProgram where
  | noBody
  /-- The body is a node of the given class and not a list of statements. -/
  | notList (className : String)
  deriving DecidableEq, Repr

/-- The statements of a program. -/
def programBody : Node → Except NotProgram (List Node)
  | .program body _ => .ok body
  | .function _ _ _ body _ | .ifStmt _ body _ | .whileStmt _ body _ =>
    .error (.notList body.className)
  | _ => .error .noBody

/-! ## Height -/

mutual

/-- The number of nodes on the longest path down a tree. -/
def height : Node → Nat
  | .absent => 0
  | .program body _ => heights body + 1
  | .block statements _ => heights statements + 1
  | .varDecl _ _ initializer _ => initializer.height + 1
  | .param .. => 1
  | .function _ params _ body _ => max (heights params) body.height + 1
  | .ifStmt condition body _ => max condition.height body.height + 1
  | .whileStmt condition body _ => max condition.height body.height + 1
  | .assignment _ value _ => value.height + 1
  | .returnStmt value _ => value.height + 1
  | .display value _ => value.height + 1
  | .binary _ left right _ => max left.height right.height + 1
  | .unary _ operand _ => operand.height + 1
  | .literal .. => 1
  | .identifier .. => 1
  | .call _ args _ => heights args + 1

def heights : List Node → Nat
  | [] => 0
  | n :: rest => max n.height (heights rest)

end

/-- How deep trees may be for the printer, the JSON codec and the comparison, and how deep
parsing, checking and evaluation may nest. -/
def nestingLimit : Nat := 1000

end Node

end TillLang
