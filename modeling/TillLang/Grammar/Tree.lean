/-
  TillLang.Grammar.Tree — derivation trees and the syntax trees they stand for.

  A derivation tree has a token at each leaf and a rule at each other node. The syntax
  tree is built from the leaves up: each node hands on the parts its children have left,
  and a rule that stands for a construct makes one part of them. Structural terminals
  leave no part; a layer of expressions with a single operand and a pair of parentheses
  hand on what is inside; the operands of a longer layer are joined to the left.
-/

import TillLang.Grammar.Rule
import TillLang.Parse.Fault

namespace TillLang.Grammar

open Parse (Fault numberOf textOf programPosition)

inductive Tree where
  | leaf (terminal : Terminal) (token : Token)
  | node (rule : Rule) (children : List Tree)

/-- What a derivation leaves for the rule above it. -/
inductive Part where
  | token (t : Token)
  | node (n : Node)
  | type (name : String)
  | nodes (ns : List Node)

def positionOf (t : Token) : Option Position := some t.location.position

/-- Operators and operands, joined to the left onto `left`. -/
def joinLeft (left : Node) : List Part → Except Fault Node
  | [] => .ok left
  | .token op :: .node right :: rest =>
    joinLeft (.binary op.lexeme left right (positionOf op)) rest
  | _ => .error .misshapen

def nodesOf (parts : List Part) : List Node :=
  parts.filterMap fun p => match p with
    | .node n => some n
    | _ => none

/-- The parameters, the return type and the body of a function, in front of which its name
stands. -/
def functionOf (name : Token) (params : List Node) (returns : Option String) (body : Node) :
    Part :=
  .node (.function name.lexeme params returns body (positionOf name))

/-- The one part a construct makes of the parts of its rule. -/
def construct : Rule → List Part → Except Fault Part
  | .startBody, parts => .ok (.node (.program (nodesOf parts) programPosition))
  | .startEmpty, _ => .ok (.node (.program [] programPosition))
  | .varDeclInit, [.token type, .token name, .node initializer] =>
    .ok (.node (.varDecl (some type.lexeme) name.lexeme initializer (positionOf type)))
  | .varDeclPlain, [.token type, .token name] =>
    .ok (.node (.varDecl (some type.lexeme) name.lexeme .absent (positionOf type)))
  | .assignment, [.token name, .node value] =>
    .ok (.node (.assignment name.lexeme value (positionOf name)))
  | .returnValue, [.token keyword, .node value] =>
    .ok (.node (.returnStmt value (positionOf keyword)))
  | .returnPlain, [.token keyword] => .ok (.node (.returnStmt .absent (positionOf keyword)))
  | .displayStmt, [.token keyword, .node value] =>
    .ok (.node (.display value (positionOf keyword)))
  | .ifStmt, [.token keyword, .node condition, .node body] =>
    .ok (.node (.ifStmt condition body (positionOf keyword)))
  | .whileStmt, [.token keyword, .node condition, .node body] =>
    .ok (.node (.whileStmt condition body (positionOf keyword)))
  | .functionFull, [.token name, .nodes params, .type returns, .node body] =>
    .ok (functionOf name params (some returns) body)
  | .functionParams, [.token name, .nodes params, .node body] =>
    .ok (functionOf name params none body)
  | .functionReturn, [.token name, .type returns, .node body] =>
    .ok (functionOf name [] (some returns) body)
  | .functionPlain, [.token name, .node body] => .ok (functionOf name [] none body)
  | .paramsMany, parts | .paramsOne, parts => .ok (.nodes (nodesOf parts))
  | .param, [.token type, .token name] =>
    .ok (.node (.param (some type.lexeme) name.lexeme (positionOf type)))
  | .returnType, [.token type] => .ok (.type type.lexeme)
  | .block, parts =>
    match nodesOf parts with
    | first :: rest => .ok (.node (.block (first :: rest) (first.position?.getD none)))
    | [] => .error .misshapen
  | .equalityMany, .node left :: rest | .relationalMany, .node left :: rest
  | .additiveMany, .node left :: rest | .multiplicativeMany, .node left :: rest =>
    .node <$> joinLeft left rest
  | .unaryOp, [.token op, .node operand] =>
    .ok (.node (.unary op.lexeme operand (positionOf op)))
  | .number, [.token t] => do return .node (.literal (← numberOf t) (positionOf t))
  | .string, [.token t] => do return .node (.literal (.str (← textOf t)) (positionOf t))
  | .char, [.token t] => do return .node (.literal (.char (← textOf t)) (positionOf t))
  | .litTrue, [.token t] => .ok (.node (.literal (.bool true) (positionOf t)))
  | .litFalse, [.token t] => .ok (.node (.literal (.bool false) (positionOf t)))
  | .callArgs, [.token name, .nodes args] =>
    .ok (.node (.call name.lexeme args (positionOf name)))
  | .callPlain, [.token name] => .ok (.node (.call name.lexeme [] (positionOf name)))
  | .identifier, [.token name] => .ok (.node (.identifier name.lexeme (positionOf name)))
  | .argsMany, parts | .argsOne, parts => .ok (.nodes (nodesOf parts))
  | _, _ => .error .misshapen

/-- Rules that hand on the parts of their children. -/
def Rule.isTransparent : Rule → Bool
  | .root | .statementsOne | .statementsMore | .statementSimple | .statementCompound
  | .simpleVarDecl | .simpleAssignment | .simpleReturn | .simpleDisplay | .compoundIf
  | .compoundWhile | .compoundFunction | .moreParamsOne | .moreParamsMore | .expr
  | .equalityOne | .moreEqualityOne | .moreEqualityMore | .relationalOne | .moreRelationalOne
  | .moreRelationalMore | .additiveOne | .moreAdditiveOne | .moreAdditiveMore
  | .multiplicativeOne | .moreMultiplicativeOne | .moreMultiplicativeMore | .unaryPrimary
  | .parens | .moreArgsOne | .moreArgsMore => true
  | _ => false

namespace Tree

def symbol : Tree → Symbol
  | .leaf t _ => t
  | .node r _ => r.lhs

mutual

/-- The parts a tree leaves. -/
def parts : Tree → Except Fault (List Part)
  | .leaf terminal token => .ok (if terminal.isStructural then [] else [.token token])
  | .node rule children => do
    let inner ← partsOf children
    if rule.isTransparent then return inner
    return [← construct rule inner]

def partsOf : List Tree → Except Fault (List Part)
  | [] => .ok []
  | t :: rest => do
    let first ← t.parts
    let others ← partsOf rest
    return first ++ others

end

mutual

/-- The number of constructs on the longest path down a tree; those that hand on what is
inside do not count. -/
def depth : Tree → Nat
  | .leaf .. => 0
  | .node rule children => depthOf children + if rule.isTransparent then 0 else 1

def depthOf : List Tree → Nat
  | [] => 0
  | t :: rest => max t.depth (depthOf rest)

end

/-- The syntax tree a derivation of a program stands for. -/
def program (t : Tree) : Except Fault Node := do
  match ← t.parts with
  | [.node n] => return n
  | _ => throw .misshapen

end Tree

end TillLang.Grammar
