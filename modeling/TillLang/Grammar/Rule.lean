/-
  TillLang.Grammar.Rule — the rules of the grammar.

  Repetitions are written with helper nonterminals that recurse on the left, and every
  optional part is a rule of its own; the empty program is the only empty text derived.
-/

import TillLang.Grammar.Symbol

namespace TillLang.Grammar

inductive Rule where
  | root
  | startBody
  | startEmpty
  | statementsOne
  | statementsMore
  | statementSimple
  | statementCompound
  | simpleVarDecl
  | simpleAssignment
  | simpleReturn
  | simpleDisplay
  | compoundIf
  | compoundWhile
  | compoundFunction
  | varDeclInit
  | varDeclPlain
  | assignment
  | returnValue
  | returnPlain
  | displayStmt
  | ifStmt
  | whileStmt
  | functionFull
  | functionParams
  | functionReturn
  | functionPlain
  | paramsMany
  | paramsOne
  | moreParamsOne
  | moreParamsMore
  | param
  | returnType
  | block
  | expr
  | equalityMany
  | equalityOne
  | moreEqualityOne
  | moreEqualityMore
  | relationalMany
  | relationalOne
  | moreRelationalOne
  | moreRelationalMore
  | additiveMany
  | additiveOne
  | moreAdditiveOne
  | moreAdditiveMore
  | multiplicativeMany
  | multiplicativeOne
  | moreMultiplicativeOne
  | moreMultiplicativeMore
  | unaryOp
  | unaryPrimary
  | number
  | string
  | char
  | litTrue
  | litFalse
  | callArgs
  | callPlain
  | identifier
  | parens
  | argsMany
  | argsOne
  | moreArgsOne
  | moreArgsMore
  deriving DecidableEq, Repr

namespace Rule

def all : List Rule :=
  [.root, .startBody, .startEmpty, .statementsOne, .statementsMore, .statementSimple,
   .statementCompound, .simpleVarDecl, .simpleAssignment, .simpleReturn, .simpleDisplay,
   .compoundIf, .compoundWhile, .compoundFunction, .varDeclInit, .varDeclPlain, .assignment,
   .returnValue, .returnPlain, .displayStmt, .ifStmt, .whileStmt, .functionFull,
   .functionParams, .functionReturn, .functionPlain, .paramsMany, .paramsOne, .moreParamsOne,
   .moreParamsMore, .param, .returnType, .block, .expr, .equalityMany, .equalityOne,
   .moreEqualityOne, .moreEqualityMore, .relationalMany, .relationalOne, .moreRelationalOne,
   .moreRelationalMore, .additiveMany, .additiveOne, .moreAdditiveOne, .moreAdditiveMore,
   .multiplicativeMany, .multiplicativeOne, .moreMultiplicativeOne, .moreMultiplicativeMore,
   .unaryOp, .unaryPrimary, .number, .string, .char, .litTrue, .litFalse, .callArgs, .callPlain,
   .identifier, .parens, .argsMany, .argsOne, .moreArgsOne, .moreArgsMore]

def code (r : Rule) : Nat := r.ctorIdx

open Terminal Nonterminal in
/-- The two sides of a rule. -/
def sides : Rule → Nonterminal × List Symbol
  | .root => (.root, [start, finish])
  | .startBody => (start, [statements])
  | .startEmpty => (start, [])
  | .statementsOne => (statements, [statement])
  | .statementsMore => (statements, [statements, statement])
  | .statementSimple => (statement, [simple, newline])
  | .statementCompound => (statement, [compound])
  | .simpleVarDecl => (simple, [varDecl])
  | .simpleAssignment => (simple, [Nonterminal.assignment])
  | .simpleReturn => (simple, [returnStmt])
  | .simpleDisplay => (simple, [Nonterminal.displayStmt])
  | .compoundIf => (compound, [Nonterminal.ifStmt])
  | .compoundWhile => (compound, [Nonterminal.whileStmt])
  | .compoundFunction => (compound, [function])
  | .varDeclInit => (varDecl, [name, name, assign, Nonterminal.expr])
  | .varDeclPlain => (varDecl, [name, name])
  | .assignment => (.assignment, [name, assign, Nonterminal.expr])
  | .returnValue => (returnStmt, [kwReturn, Nonterminal.expr])
  | .returnPlain => (returnStmt, [kwReturn])
  | .displayStmt => (.displayStmt, [kwDisplay, Nonterminal.expr])
  | .ifStmt => (.ifStmt, [kwIf, Nonterminal.expr, Nonterminal.block])
  | .whileStmt => (.whileStmt, [kwWhile, Nonterminal.expr, Nonterminal.block])
  | .functionFull =>
    (function, [name, lpar, params, rpar, Nonterminal.returnType, Nonterminal.block])
  | .functionParams => (function, [name, lpar, params, rpar, Nonterminal.block])
  | .functionReturn => (function, [name, lpar, rpar, Nonterminal.returnType, Nonterminal.block])
  | .functionPlain => (function, [name, lpar, rpar, Nonterminal.block])
  | .paramsMany => (params, [Nonterminal.param, moreParams])
  | .paramsOne => (params, [Nonterminal.param])
  | .moreParamsOne => (moreParams, [comma, Nonterminal.param])
  | .moreParamsMore => (moreParams, [moreParams, comma, Nonterminal.param])
  | .param => (.param, [name, name])
  | .returnType => (.returnType, [arrow, name])
  | .block => (.block, [newline, indent, statements, dedent])
  | .expr => (.expr, [equality])
  | .equalityMany => (equality, [relational, moreEquality])
  | .equalityOne => (equality, [relational])
  | .moreEqualityOne => (moreEquality, [eqOp, relational])
  | .moreEqualityMore => (moreEquality, [moreEquality, eqOp, relational])
  | .relationalMany => (relational, [additive, moreRelational])
  | .relationalOne => (relational, [additive])
  | .moreRelationalOne => (moreRelational, [relOp, additive])
  | .moreRelationalMore => (moreRelational, [moreRelational, relOp, additive])
  | .additiveMany => (additive, [multiplicative, moreAdditive])
  | .additiveOne => (additive, [multiplicative])
  | .moreAdditiveOne => (moreAdditive, [addOp, multiplicative])
  | .moreAdditiveMore => (moreAdditive, [moreAdditive, addOp, multiplicative])
  | .multiplicativeMany => (multiplicative, [unary, moreMultiplicative])
  | .multiplicativeOne => (multiplicative, [unary])
  | .moreMultiplicativeOne => (moreMultiplicative, [mulOp, unary])
  | .moreMultiplicativeMore => (moreMultiplicative, [moreMultiplicative, mulOp, unary])
  | .unaryOp => (unary, [Terminal.unaryOp, unary])
  | .unaryPrimary => (unary, [primary])
  | .number => (primary, [Terminal.number])
  | .string => (primary, [Terminal.string])
  | .char => (primary, [Terminal.char])
  | .litTrue => (primary, [Terminal.litTrue])
  | .litFalse => (primary, [Terminal.litFalse])
  | .callArgs => (primary, [name, lpar, args, rpar])
  | .callPlain => (primary, [name, lpar, rpar])
  | .identifier => (primary, [name])
  | .parens => (primary, [lpar, Nonterminal.expr, rpar])
  | .argsMany => (args, [Nonterminal.expr, moreArgs])
  | .argsOne => (args, [Nonterminal.expr])
  | .moreArgsOne => (moreArgs, [comma, Nonterminal.expr])
  | .moreArgsMore => (moreArgs, [moreArgs, comma, Nonterminal.expr])

def lhs (r : Rule) : Nonterminal := r.sides.1

def rhs (r : Rule) : List Symbol := r.sides.2

/-- The rules of a nonterminal. -/
def ofNonterminal (n : Nonterminal) : List Rule := all.filter (·.lhs == n)

end Rule

end TillLang.Grammar
