/-
  TillLang.Grammar.Symbol — the symbols of the grammar.

  Terminals are the tokens as the grammar sees them: keywords and operators are terminals
  of their own, operators of one precedence share a terminal, and the end of the text is a
  terminal too. Messages describe a terminal by its text where it has only one, and by a
  word otherwise.
-/

import TillLang.Token.Basic

namespace TillLang.Grammar

inductive Terminal where
  | name
  | number
  | string
  | char
  | litTrue
  | litFalse
  | kwIf
  | kwWhile
  | kwReturn
  | kwDisplay
  | eqOp
  | relOp
  | addOp
  | mulOp
  | unaryOp
  | lpar
  | rpar
  | comma
  | arrow
  | assign
  | newline
  | indent
  | dedent
  | finish
  deriving DecidableEq, Repr

namespace Terminal

def all : List Terminal :=
  [.name, .number, .string, .char, .litTrue, .litFalse, .kwIf, .kwWhile, .kwReturn, .kwDisplay,
   .eqOp, .relOp, .addOp, .mulOp, .unaryOp, .lpar, .rpar, .comma, .arrow, .assign, .newline,
   .indent, .dedent, .finish]

/-- The number of a terminal. -/
def code (t : Terminal) : Nat := t.ctorIdx

/-- What messages call a terminal. -/
def description : Terminal → String
  | .name => "name"
  | .number => "number"
  | .string => "string"
  | .char => "char"
  | .litTrue => "'true'"
  | .litFalse => "'false'"
  | .kwIf => "'if'"
  | .kwWhile => "'while'"
  | .kwReturn => "'return'"
  | .kwDisplay => "'display'"
  | .eqOp => "'=='"
  | .relOp => "'<' or '>'"
  | .addOp => "'+' or '-'"
  | .mulOp => "'*' or '/'"
  | .unaryOp => "'!' or '~'"
  | .lpar => "'('"
  | .rpar => "')'"
  | .comma => "','"
  | .arrow => "'->'"
  | .assign => "'='"
  | .newline => "end of line"
  | .indent => "indented block"
  | .dedent => "dedent"
  | .finish => "end of input"

/-- Terminals that only give structure: they leave no trace in a tree, and messages
describe one that was found by its description instead of its text. -/
def isStructural : Terminal → Bool
  | .lpar | .rpar | .comma | .arrow | .assign | .newline | .indent | .dedent | .finish => true
  | _ => false

/-- The terminal of a keyword or an operator. -/
def ofText? : String → Option Terminal
  | "if" => some .kwIf
  | "while" => some .kwWhile
  | "return" => some .kwReturn
  | "display" => some .kwDisplay
  | "==" => some .eqOp
  | "<" => some .relOp
  | ">" => some .relOp
  | "+" => some .addOp
  | "-" => some .addOp
  | "*" => some .mulOp
  | "/" => some .mulOp
  | "!" => some .unaryOp
  | "~" => some .unaryOp
  | "(" => some .lpar
  | ")" => some .rpar
  | "," => some .comma
  | "->" => some .arrow
  | "=" => some .assign
  | _ => none

/-- The terminal a token stands for. -/
def ofToken? (t : Token) : Option Terminal :=
  match t.kind with
  | .newline => some .newline
  | .indent => some .indent
  | .dedent => some .dedent
  | .eof => some .finish
  | .bool => some (if t.lexeme == "true" then .litTrue else .litFalse)
  | .name => some .name
  | .number => some .number
  | .string => some .string
  | .char => some .char
  | .keyword | .op => ofText? t.lexeme

end Terminal

inductive Nonterminal where
  /-- The whole text: a program and its end. -/
  | root
  | start
  | statements
  | statement
  | simple
  | compound
  | varDecl
  | assignment
  | returnStmt
  | displayStmt
  | ifStmt
  | whileStmt
  | function
  | params
  | moreParams
  | param
  | returnType
  | block
  | expr
  | equality
  | moreEquality
  | relational
  | moreRelational
  | additive
  | moreAdditive
  | multiplicative
  | moreMultiplicative
  | unary
  | primary
  | args
  | moreArgs
  deriving DecidableEq, Repr

def Nonterminal.all : List Nonterminal :=
  [.root, .start, .statements, .statement, .simple, .compound, .varDecl, .assignment,
   .returnStmt, .displayStmt, .ifStmt, .whileStmt, .function, .params, .moreParams, .param,
   .returnType, .block, .expr, .equality, .moreEquality, .relational, .moreRelational, .additive,
   .moreAdditive, .multiplicative, .moreMultiplicative, .unary, .primary, .args, .moreArgs]

/-- A symbol of the grammar. -/
inductive Symbol where
  | terminal (t : Terminal)
  | nonterminal (n : Nonterminal)
  deriving DecidableEq, Repr

instance : Coe Terminal Symbol := ⟨.terminal⟩

instance : Coe Nonterminal Symbol := ⟨.nonterminal⟩

end TillLang.Grammar
