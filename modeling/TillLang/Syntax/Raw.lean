/-
  TillLang.Syntax.Raw — trees as they are loaded.

  A loaded tree has in the places of names, operators, kinds and types whatever values the JSON
  value has there. Parsers build trees in which all of these are texts (`Node`), and the checker,
  the printer and the machine are written for such trees. `Node.raw` is one of them among the
  loaded trees; `RawNode.node?` goes back, where that is possible.
-/

import TillLang.Syntax.Basic

namespace TillLang

namespace Json

instance decidableEqNull (j : Json) : Decidable (j = .null) :=
  match j with
  | .null => isTrue rfl
  | .bool _ | .int _ | .float _ | .str _ | .list _ | .object _ => isFalse nofun

instance decidableEqStr (j : Json) (s : String) : Decidable (j = .str s) :=
  match j with
  | .str t => decidable_of_iff (t = s) ⟨congrArg Json.str, Json.str.inj⟩
  | .null | .bool _ | .int _ | .float _ | .list _ | .object _ => isFalse nofun

def str? : Json → Option String
  | .str s => some s
  | _ => none

end Json

/-- A type that is given: null stands for none. -/
structure RawType where
  value : Json
  given : value ≠ .null

inductive RawLiteral where
  | num (x : Float)
  | other (kind value : Json) (notNum : kind ≠ .str numKind)

namespace RawLiteral

def kind : RawLiteral → Json
  | .num _ => .str numKind
  | .other kind _ _ => kind

def value : RawLiteral → Json
  | .num x => .float x
  | .other _ value _ => value

end RawLiteral

/-- Trees whose names, operators and types are any values. -/
inductive RawNode where
  | absent
  | program (body : List RawNode) (position : Option Position)
  | block (statements : List RawNode) (position : Option Position)
  | varDecl (type : Option RawType) (name : Json) (initializer : RawNode)
      (position : Option Position)
  | param (type : Option RawType) (name : Json) (position : Option Position)
  | function (name : Json) (params : List RawNode) (returns : Option RawType) (body : RawNode)
      (position : Option Position)
  | ifStmt (condition body : RawNode) (position : Option Position)
  | whileStmt (condition body : RawNode) (position : Option Position)
  | assignment (name : Json) (value : RawNode) (position : Option Position)
  | returnStmt (value : RawNode) (position : Option Position)
  | display (value : RawNode) (position : Option Position)
  | binary (op : Json) (left right : RawNode) (position : Option Position)
  | unary (op : Json) (operand : RawNode) (position : Option Position)
  | literal (value : RawLiteral) (position : Option Position)
  | identifier (name : Json) (position : Option Position)
  | call (callee : Json) (args : List RawNode) (position : Option Position)
  deriving Inhabited

namespace RawNode

mutual

/-- The number of nodes on the longest path down a tree. -/
def height : RawNode → Nat
  | .absent => 0
  | .program body _ => heights body + 1
  | .block statements _ => heights statements + 1
  | .varDecl _ _ initializer _ => initializer.height + 1
  | .param .. => 1
  | .function _ params _ body _ => max (heights params) body.height + 1
  | .ifStmt condition body _ => max condition.height body.height + 1
  | .whileStmt condition body _ => max condition.height body.height + 1
  | .assignment _ value _ => value.height + 1
  | .returnStmt value _ => value.height + 1
  | .display value _ => value.height + 1
  | .binary _ left right _ => max left.height right.height + 1
  | .unary _ operand _ => operand.height + 1
  | .literal .. => 1
  | .identifier .. => 1
  | .call _ args _ => heights args + 1

def heights : List RawNode → Nat
  | [] => 0
  | t :: rest => max t.height (heights rest)

end

end RawNode

/-! ## Trees whose names are texts -/

def RawType.ofName (name : String) : RawType := ⟨.str name, nofun⟩

def Literal.raw : Literal → RawLiteral
  | .num x => .num x
  | .other kind value notNum => .other (.str kind) value fun h => notNum (Json.str.inj h)

namespace Node

mutual

def raw : Node → RawNode
  | .absent => .absent
  | .program body p => .program (raws body) p
  | .block statements p => .block (raws statements) p
  | .varDecl type name initializer p => .varDecl (type.map .ofName) (.str name) initializer.raw p
  | .param type name p => .param (type.map .ofName) (.str name) p
  | .function name params returns body p =>
    .function (.str name) (raws params) (returns.map .ofName) body.raw p
  | .ifStmt condition body p => .ifStmt condition.raw body.raw p
  | .whileStmt condition body p => .whileStmt condition.raw body.raw p
  | .assignment name value p => .assignment (.str name) value.raw p
  | .returnStmt value p => .returnStmt value.raw p
  | .display value p => .display value.raw p
  | .binary op left right p => .binary (.str op) left.raw right.raw p
  | .unary op operand p => .unary (.str op) operand.raw p
  | .literal value p => .literal value.raw p
  | .identifier name p => .identifier (.str name) p
  | .call callee args p => .call (.str callee) (raws args) p

def raws : List Node → List RawNode
  | [] => []
  | n :: rest => n.raw :: raws rest

end

end Node

/-- The name of a type, or none where none is given. -/
def RawType.name? : Option RawType → Option (Option String)
  | none => some none
  | some type => some <$> type.value.str?

def RawLiteral.literal? : RawLiteral → Option Literal
  | .num x => some (.num x)
  | .other kind value notNum =>
    match kind, notNum with
    | .str kind, notNum => some (.other kind value fun h => notNum (congrArg Json.str h))
    | _, _ => none

namespace RawNode

mutual

/-- The tree itself, if its names, operators, kinds and types are texts. -/
def node? : RawNode → Option Node
  | .absent => return .absent
  | .program body p => return .program (← nodes? body) p
  | .block statements p => return .block (← nodes? statements) p
  | .varDecl type name initializer p =>
    return .varDecl (← RawType.name? type) (← name.str?) (← initializer.node?) p
  | .param type name p => return .param (← RawType.name? type) (← name.str?) p
  | .function name params returns body p =>
    return .function (← name.str?) (← nodes? params) (← RawType.name? returns) (← body.node?) p
  | .ifStmt condition body p => return .ifStmt (← condition.node?) (← body.node?) p
  | .whileStmt condition body p => return .whileStmt (← condition.node?) (← body.node?) p
  | .assignment name value p => return .assignment (← name.str?) (← value.node?) p
  | .returnStmt value p => return .returnStmt (← value.node?) p
  | .display value p => return .display (← value.node?) p
  | .binary op left right p => return .binary (← op.str?) (← left.node?) (← right.node?) p
  | .unary op operand p => return .unary (← op.str?) (← operand.node?) p
  | .literal value p => return .literal (← value.literal?) p
  | .identifier name p => return .identifier (← name.str?) p
  | .call callee args p => return .call (← callee.str?) (← nodes? args) p

def nodes? : List RawNode → Option (List Node)
  | [] => return []
  | t :: rest => return (← t.node?) :: (← nodes? rest)

end

end RawNode

end TillLang
