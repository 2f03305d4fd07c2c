/-
  TillLang.Syntax.Codec — trees as JSON values.

  A node is an object with its class under `type`, its parts under their names, and its
  position, if it has one, as a pair. `toJson` writes every tree. `ofJson` reads the parts
  in a fixed order, so that the first fault in that order is the one reported: the
  position first, then the parts of the class from left to right. The reader takes names,
  operators, kinds and types for what they are; only whether a kind is that of numbers is
  looked at.
-/

import TillLang.Decimal.Reading
import TillLang.Syntax.Raw

namespace TillLang.Syntax

open Node RawNode

/-! ## Writing -/

def typeJson : Option RawType → Json
  | some type => type.value
  | none => .null

def positionFields : Option Position → List (String × Json)
  | some p => [("position", .list [p.line, p.column])]
  | none => []

def nodeJson (className : String) (parts : List (String × Json)) (position : Option Position) :
    Json :=
  .object (("type", .str className) :: (parts ++ positionFields position))

mutual

def toJson : RawNode → Json
  | .absent => .null
  | .program body p => nodeJson "Program" [("body", .list (toJsons body))] p
  | .block statements p => nodeJson "Block" [("statements", .list (toJsons statements))] p
  | .varDecl type name initializer p =>
    nodeJson "VarDecl"
      [("type_spec", typeJson type), ("name", name), ("initializer", toJson initializer)] p
  | .param type name p => nodeJson "Param" [("type_spec", typeJson type), ("name", name)] p
  | .function name params returns body p =>
    nodeJson "FunctionDecl"
      [("name", name), ("params", .list (toJsons params)), ("return_type", typeJson returns),
       ("body", toJson body)] p
  | .ifStmt condition body p =>
    nodeJson "IfStmt" [("condition", toJson condition), ("body", toJson body)] p
  | .whileStmt condition body p =>
    nodeJson "WhileStmt" [("condition", toJson condition), ("body", toJson body)] p
  | .assignment name value p => nodeJson "Assignment" [("name", name), ("value", toJson value)] p
  | .returnStmt value p => nodeJson "ReturnStmt" [("value", toJson value)] p
  | .display value p => nodeJson "DisplayStmt" [("value", toJson value)] p
  | .binary op left right p =>
    nodeJson "BinaryExpr" [("op", op), ("left", toJson left), ("right", toJson right)] p
  | .unary op operand p => nodeJson "UnaryExpr" [("op", op), ("operand", toJson operand)] p
  | .literal value p => nodeJson "Literal" [("value", value.value), ("kind", value.kind)] p
  | .identifier name p => nodeJson "Identifier" [("name", name)] p
  | .call callee args p => nodeJson "Call" [("callee", callee), ("args", .list (toJsons args))] p

def toJsons : List RawNode → List Json
  | [] => []
  | t :: rest => toJson t :: toJsons rest

end

/-- The JSON value of a tree, if the tree is not nested past the limit. -/
def encode? (t : RawNode) : Option Json :=
  if nestingLimit < t.height then none else some (toJson t)

/-! ## Reading -/

inductive LoadFault where
  | notObject
  | unknownClass (word : String)
  | missingField (name : String)
  /-- A field that holds a list was given a value without items. -/
  | notIterable (typeName : String)
  | notSubscriptable (typeName : String)
  /-- The position is an object, which has no part under a number. -/
  | positionObject
  | shortPosition
  /-- A number literal holds a text that is no number. -/
  | notNumeric (text : String)
  /-- A number literal holds neither a number nor a text. -/
  | notNumber (typeName : String)
  /-- A number literal holds an integer past the largest double. -/
  | hugeNumber
  | tooDeep
  deriving DecidableEq, Repr

/-- The first two parts of a value that is taken for a position. -/
def readPosition : Option Json → Except LoadFault (Option Position)
  | none | some .null => .ok none
  | some (.list (line :: column :: _)) => .ok (some ⟨line, column⟩)
  | some (.list _) => .error .shortPosition
  | some (.str s) =>
    match s.toList with
    | line :: column :: _ =>
      .ok (some ⟨.str (String.singleton line), .str (String.singleton column)⟩)
    | _ => .error .shortPosition
  | some (.object _) => .error .positionObject
  | some j => .error (.notSubscriptable j.typeName)

def required (fields : List (String × Json)) (name : String) : Except LoadFault Json :=
  match Json.field? fields name with
  | some j => .ok j
  | none => .error (.missingField name)

/-- A field that may be missing counts as null then. -/
def optional (fields : List (String × Json)) (name : String) : Json :=
  (Json.field? fields name).getD .null

def readType (j : Json) : Option RawType := if h : j = .null then none else some ⟨j, h⟩

/-- The double a value stands for. -/
def readNumber : Json → Except LoadFault Float
  | .float x => .ok x
  | .bool b => .ok (Decimal.floatOfBits false (if b then 0x3FF0000000000000 else 0))
  | .int n =>
    match Decimal.floatOfInt? n with
    | some x => .ok x
    | none => .error .hugeNumber
  | .str s =>
    match Decimal.read? s with
    | some x => .ok x
    | none => .error (.notNumeric s)
  | j => .error (.notNumber j.typeName)

def readLiteral (kind value : Json) : Except LoadFault RawLiteral :=
  if h : kind = .str numKind then .num <$> readNumber value else .ok (.other kind value h)

/-- The nodes of a list. A text or an object is taken for the list of its characters or
names, none of which is a node. -/
def readNodes (node : Json → Except LoadFault RawNode) : Json → Except LoadFault (List RawNode)
  | .list items => items.mapM node
  | .str "" => .ok []
  | .object [] => .ok []
  | .str _ | .object _ => .error .notObject
  | j => .error (.notIterable j.typeName)

/-- The tree of an object with the given fields, its parts being read by `node`. -/
def readObject (node : Json → Except LoadFault RawNode) (fields : List (String × Json)) :
    Except LoadFault RawNode := do
  let p ← readPosition (Json.field? fields "position")
  let required := required fields
  match optional fields "type" with
  | .str "Program" => return .program (← readNodes node (← required "body")) p
  | .str "Block" => return .block (← readNodes node (← required "statements")) p
  | .str "VarDecl" =>
    let type ← required "type_spec"
    let name ← required "name"
    return .varDecl (readType type) name (← node (optional fields "initializer")) p
  | .str "Param" =>
    let type ← required "type_spec"
    return .param (readType type) (← required "name") p
  | .str "FunctionDecl" =>
    let name ← required "name"
    let params ← readNodes node (← required "params")
    let returns := readType (optional fields "return_type")
    return .function name params returns (← node (← required "body")) p
  | .str "IfStmt" =>
    let condition ← node (← required "condition")
    return .ifStmt condition (← node (← required "body")) p
  | .str "WhileStmt" =>
    let condition ← node (← required "condition")
    return .whileStmt condition (← node (← required "body")) p
  | .str "Assignment" =>
    let name ← required "name"
    return .assignment name (← node (← required "value")) p
  | .str "ReturnStmt" => return .returnStmt (← node (optional fields "value")) p
  | .str "DisplayStmt" => return .display (← node (← required "value")) p
  | .str "BinaryExpr" =>
    let op ← required "op"
    let left ← node (← required "left")
    return .binary op left (← node (← required "right")) p
  | .str "UnaryExpr" =>
    let op ← required "op"
    return .unary op (← node (← required "operand")) p
  | .str "Literal" =>
    let value ← required "value"
    let kind ← required "kind"
    return .literal (← readLiteral kind value) p
  | .str "Identifier" => return .identifier (← required "name") p
  | .str "Call" =>
    let callee ← required "callee"
    return .call callee (← readNodes node (← required "args")) p
  | word => .error (.unknownClass word.text)

/-- The tree of a JSON value that is nested at most `limit` deep. -/
def ofJson : Nat → Json → Except LoadFault RawNode
  | _, .null => .ok .absent
  | 0, _ => .error .tooDeep
  | limit + 1, .object fields => readObject (ofJson limit) fields
  | _, _ => .error .notObject

def decode (j : Json) : Except LoadFault RawNode := ofJson nestingLimit j

def LoadFault.message? : LoadFault → Option String
  | .notObject => some "Invalid AST object"
  | .unknownClass word => some ("Unknown AST node type: " ++ word)
  | .missingField name => some (Text.inspect name)
  | .notIterable typeName => some ("'" ++ typeName ++ "' object is not iterable")
  | .notSubscriptable typeName => some ("'" ++ typeName ++ "' object is not subscriptable")
  | .positionObject => some "0"
  | .notNumeric text => some ("could not convert string to float: " ++ Text.inspect text)
  | .notNumber typeName =>
    some ("float() argument must be a string or a real number, not '" ++ typeName ++ "'")
  | .shortPosition | .hugeNumber | .tooDeep => none

end TillLang.Syntax
