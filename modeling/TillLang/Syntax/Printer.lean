/-
  TillLang.Syntax.Printer — trees to canonical source text.

  One statement stands on a line, four spaces mark a block level, single spaces surround
  binary operators, and only those parentheses are written that precedence and
  association to the left require. Trees that no source text stands for are refused, each
  for a stated cause.
-/

import TillLang.Syntax.Basic
import TillLang.Text.LineEnd
import TillLang.Text.Quoted

namespace TillLang.Syntax

open Node

inductive PrintFault where
  /-- The operator has no place in the precedence order. -/
  | unknownOperator (op : String)
  | notExpression (className : String)
  | notStatement (className : String)
  /-- The literal holds a value that is not a sequence. -/
  | notIterable (typeName : String)
  /-- The literal holds a sequence whose item is not a text. -/
  | notText (index : Nat) (typeName : String)
  /-- The literal holds a sequence with a list or an object in it. -/
  | unhashable (typeName : String)
  | missingPart
  | tooDeep
  deriving DecidableEq, Repr

/-! ## Literals -/

/-- The items of a value that is taken for a sequence. -/
def sequence? : Json → Option (List Json)
  | .str s => some (s.toList.map fun c => .str (String.singleton c))
  | .list items => some items
  | .object fields => some (fields.map fun f => .str f.1)
  | _ => none

def quoteItem (delimiter : Char) : Json → Json
  | .str s =>
    match s.toList with
    | [c] => .str (String.ofList (Text.Quoted.encodeChar delimiter c))
    | _ => .str s
  | j => j

/-- The texts of quoted items, joined; every item has to be a text. -/
def joinTexts : Nat → List Json → Except PrintFault String
  | _, [] => .ok ""
  | index, .str s :: rest => (s ++ ·) <$> joinTexts (index + 1) rest
  | index, j :: _ => .error (.notText index j.typeName)

/-- The first list or object among items. -/
def unhashable? : List Json → Option Json
  | [] => none
  | j@(.list _) :: _ | j@(.object _) :: _ => some j
  | _ :: rest => unhashable? rest

/-- A value between two delimiters. -/
def quoteValue (delimiter : Char) (value : Json) : Except PrintFault String :=
  match sequence? value with
  | none => .error (.notIterable value.typeName)
  | some items =>
    match unhashable? items with
    | some j => .error (.unhashable j.typeName)
    | none => do
      let body ← joinTexts 0 (items.map (quoteItem delimiter))
      return String.singleton delimiter ++ body ++ String.singleton delimiter

def isNegative (x : Float) : Bool := x < 0

/-- The text of a literal. There are no negative literals: a negative number is written
as the negation of its opposite. -/
def printLiteral : Literal → Except PrintFault String
  | .num x => .ok (if isNegative x then "~" ++ Decimal.numeral (-x) else Decimal.numeral x)
  | .other kind value _ =>
    if kind = "Bool" then .ok (if value.truthy then "true" else "false")
    else if kind = "Char" then quoteValue '\'' value
    else quoteValue '"' value

/-! ## Expressions -/

def precedence? : String → Option Nat
  | "==" => some 1
  | "<" => some 2
  | ">" => some 2
  | "+" => some 3
  | "-" => some 3
  | "*" => some 4
  | "/" => some 4
  | _ => none

def unaryPrecedence : Nat := 5

def atomPrecedence : Nat := 6

/-- How tightly the outermost operator of an expression binds. -/
def bindingOf : Node → Nat
  | .binary op _ _ _ => (precedence? op).getD 0
  | .unary .. => unaryPrecedence
  | .literal (.num x) _ => if isNegative x then unaryPrecedence else atomPrecedence
  | _ => atomPrecedence

/-- A text in parentheses, if it needs them. -/
def parenthesize (needed : Bool) (text : String) : String :=
  if needed then "(" ++ text ++ ")" else text

mutual

def printExpr : Node → Except PrintFault String
  | .literal value _ => printLiteral value
  | .identifier name _ => .ok name
  | .call callee args _ => do
    let texts ← printExprs args
    return callee ++ "(" ++ ", ".intercalate texts ++ ")"
  | .unary op operand _ => do
    let text ← printExpr operand
    return op ++ parenthesize (bindingOf operand < unaryPrecedence) text
  | .binary op left right _ =>
    match precedence? op with
    | none => .error (.unknownOperator op)
    | some level => do
      let leftText ← printExpr left
      let rightText ← printExpr right
      return parenthesize (bindingOf left < level) leftText ++ " " ++ op ++ " " ++
        parenthesize (bindingOf right ≤ level) rightText
  | node => .error (.notExpression node.className)

def printExprs : List Node → Except PrintFault (List String)
  | [] => .ok []
  | e :: rest => do
    let text ← printExpr e
    let texts ← printExprs rest
    return text :: texts

end

/-! ## Statements -/

def pad (level : Nat) : String := String.ofList (List.replicate (4 * level) ' ')

def printParam (node : Node) : Except PrintFault String :=
  match node.declared? with
  | some (some type, name) => .ok (type ++ " " ++ name)
  | _ => .error .missingPart

/-- The text before the block of a function. -/
def printHeader (name : String) (params : List Node) (returns : Option String) :
    Except PrintFault String := do
  let texts ← params.mapM printParam
  let header := name ++ "(" ++ ", ".intercalate texts ++ ")"
  return match returns with
    | some type => header ++ " -> " ++ type
    | none => header

mutual

def printStatement (level : Nat) : Node → Except PrintFault (List String)
  | .varDecl type name initializer _ =>
    match type with
    | none => .error .missingPart
    | some type =>
      match initializer with
      | .absent => .ok [pad level ++ type ++ " " ++ name]
      | initializer => do
        return [pad level ++ type ++ " " ++ name ++ " = " ++ (← printExpr initializer)]
  | .assignment name value _ => do return [pad level ++ name ++ " = " ++ (← printExpr value)]
  | .returnStmt .absent _ => .ok [pad level ++ "return"]
  | .returnStmt value _ => do return [pad level ++ "return " ++ (← printExpr value)]
  | .display value _ => do return [pad level ++ "display " ++ (← printExpr value)]
  | .ifStmt condition body _ => do
    let text ← printExpr condition
    let lines ← printBlock (level + 1) body
    return (pad level ++ "if " ++ text) :: lines
  | .whileStmt condition body _ => do
    let text ← printExpr condition
    let lines ← printBlock (level + 1) body
    return (pad level ++ "while " ++ text) :: lines
  | .function name params returns body _ => do
    let header ← printHeader name params returns
    let lines ← printBlock (level + 1) body
    return (pad level ++ header) :: lines
  | node => .error (.notStatement node.className)

def printBlock (level : Nat) : Node → Except PrintFault (List String)
  | .block statements _ => printStatements level statements
  | _ => .error .missingPart

def printStatements (level : Nat) : List Node → Except PrintFault (List String)
  | [] => .ok []
  | s :: rest => do
    let first ← printStatement level s
    let others ← printStatements level rest
    return first ++ others

end

inductive ProgramFault where
  | notProgram (cause : NotProgram)
  | print (cause : PrintFault)
  deriving DecidableEq, Repr

def printBody (body : List Node) : Except PrintFault String :=
  Text.joinLines <$> printStatements 0 body

/-- The canonical text of a program of bounded height. -/
def printProgram (program : Node) : Except ProgramFault String :=
  match program.programBody with
  | .error cause => .error (.notProgram cause)
  | .ok body =>
    if nestingLimit < heights body then .error (.print .tooDeep)
    else (printBody body).mapError .print

/-- The text of an expression of bounded height. -/
def printExpression (e : Node) : Except PrintFault String :=
  if nestingLimit < e.height then .error .tooDeep else printExpr e

def PrintFault.message? : PrintFault → Option String
  | .unknownOperator op => some (Text.inspect op)
  | .notExpression className => some ("cannot format expression " ++ className)
  | .notStatement className => some ("cannot format statement " ++ className)
  | .notIterable typeName => some ("'" ++ typeName ++ "' object is not iterable")
  | .notText index typeName =>
    some ("sequence item " ++ toString index ++ ": expected str instance, " ++ typeName ++
      " found")
  | .unhashable typeName => some ("unhashable type: '" ++ typeName ++ "'")
  | .missingPart | .tooDeep => none

end TillLang.Syntax
