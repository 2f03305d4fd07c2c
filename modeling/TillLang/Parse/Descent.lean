/-
  TillLang.Parse.Descent — the parser by recursive descent.

  Statements are told apart by their first token, those that start with a name by their
  second. Expressions have one layer per precedence, each a sequence of operands of the
  next layer joined to the left; the innermost layer is prefix operators on a primary.

  The depth of nesting is bounded by an argument. An expression or block that nests past
  it is refused at the start of the innermost statement around it.
-/

import TillLang.Parse.Cursor

namespace TillLang.Parse

/-- A part of the grammar, read from a cursor. -/
abbrev Parser (α : Type) := Cursor → Except Fault (α × Cursor)

/-! ## Expressions -/

/-- The rest of a layer: operators and operands, joined to the left onto `left`. -/
def chain (ops : List String) (operand : Parser Node) : Nat → Node → Parser Node
  | 0, left, c => .ok (left, c)
  | steps + 1, left, c =>
    if c.sees ops then do
      let (right, after) ← operand c.next
      let joined := Node.binary c.head.lexeme left right (some c.head.location.position)
      chain ops operand steps joined after
    else .ok (left, c)

/-- A layer of expressions: operands joined to the left by some operators. -/
def layer (ops : List String) (operand : Parser Node) : Parser Node := fun c => do
  let (left, after) ← operand c
  chain ops operand after.room left after

/-- The four layers of binary operators around an operand. -/
def layers (operand : Parser Node) : Parser Node :=
  layer ["=="] (layer ["<", ">"] (layer ["+", "-"] (layer ["*", "/"] operand)))

def moreArguments (expression : Parser Node) : Nat → Parser (List Node)
  | 0, c => .ok ([], c)
  | steps + 1, c =>
    if c.sees [","] then do
      let (arg, after) ← expression c.next
      let (args, last) ← moreArguments expression steps after
      return (arg :: args, last)
    else .ok ([], c)

def arguments (expression : Parser Node) : Parser (List Node) := fun c => do
  let (_, c) ← c.expect "(" "("
  if c.sees [")"] then return ([], c.next)
  let (arg, c) ← expression c
  let (args, c) ← moreArguments expression c.room c
  let (_, c) ← c.expect ")" ")"
  return (arg :: args, c)

/-- A literal, a name, a call, or an expression in parentheses. -/
def primary (expression : Parser Node) : Parser Node := fun c =>
  let position := some c.head.location.position
  match literalOf? c.head with
  | some literal => do return (.literal (← literal) position, c.next)
  | none =>
    if c.head.kind = .name then
      if c.next.sees ["("] then do
        let (args, after) ← arguments expression c.next
        return (.call c.head.lexeme args position, after)
      else .ok (.identifier c.head.lexeme position, c.next)
    else if c.sees ["("] then do
      let (inner, c) ← expression c.next
      let (_, c) ← c.expect ")" ")"
      return (inner, c)
    else .error (unexpected "expression" c.head)

/-- Prefix operators on a primary, nested at most `depth` deep. -/
def operand : Nat → Parser Node
  | 0, _ => .error .tooDeep
  | depth + 1, c =>
    if c.sees ["!", "~"] then do
      let (inner, after) ← operand depth c.next
      return (.unary c.head.lexeme inner (some c.head.location.position), after)
    else primary (layers (operand depth)) c

/-- An expression, nested at most `depth` deep. -/
def expression (depth : Nat) : Parser Node := layers (operand depth)

/-! ## Statements -/

/-- The end of a statement without a block; the last statement of a block or of the text
needs no line end. -/
def endOfStatement : Parser Unit := fun c =>
  if c.sees ["DEDENT", "EOF"] then .ok ((), c)
  else do
    let (_, c) ← c.expect "NEWLINE" "end of line"
    return ((), c)

/-- Statements up to the end of a block or of the text. -/
def statementsTo (stops : List String) (statement : Parser Node) : Nat → Parser (List Node)
  | 0, c => .ok ([], c)
  | steps + 1, c =>
    if c.sees stops then .ok ([], c)
    else do
      let (first, after) ← statement c
      let (others, last) ← statementsTo stops statement steps after
      return (first :: others, last)

/-- An indented block, which holds at least one statement. -/
def block (statement : Parser Node) : Parser Node := fun c => do
  let (_, c) ← c.expect "NEWLINE" "end of line before block"
  let (_, start) ← c.expect "INDENT" "indented block"
  let (statements, c) ← statementsTo ["DEDENT", "EOF"] statement start.room start
  if statements.isEmpty then throw (unexpected "statement" c.head)
  let (_, c) ← c.expect "DEDENT" "dedent"
  return (.block statements (some start.head.location.position), c)

def typeName : Parser String := fun c => do
  let (t, c) ← c.expect "NAME" "type identifier"
  return (t.lexeme, c)

/-- A type, a name, and possibly an initial value. -/
def declaration (expression : Parser Node) : Parser Node := fun c => do
  let position := some c.head.location.position
  let (type, c) ← typeName c
  let (name, c) ← c.expect "NAME" "variable name"
  if c.sees ["="] then
    let (initializer, c) ← expression c.next
    let (_, c) ← endOfStatement c
    return (.varDecl (some type) name.lexeme initializer position, c)
  else
    let (_, c) ← endOfStatement c
    return (.varDecl (some type) name.lexeme .absent position, c)

def assignment (expression : Parser Node) : Parser Node := fun c => do
  let (name, c) ← c.expect "NAME" "NAME"
  let (_, c) ← c.expect "=" "="
  let (value, c) ← expression c
  let (_, c) ← endOfStatement c
  return (.assignment name.lexeme value (some name.location.position), c)

/-- Parameters separated by commas; there is at least one. -/
def parameters : Nat → Parser (List Node)
  | 0, c => .ok ([], c)
  | steps + 1, c => do
    let position := some c.head.location.position
    let (type, c) ← typeName c
    let (name, c) ← c.expect "NAME" "parameter name"
    let param := Node.param (some type) name.lexeme position
    if c.sees [","] then
      let (others, c) ← parameters steps c.next
      return (param :: others, c)
    else return ([param], c)

def parameterList : Parser (List Node) := fun c =>
  if c.sees [")"] then .ok ([], c) else parameters c.room c

def returnType : Parser (Option String) := fun c =>
  if c.sees ["->"] then do
    let (type, c) ← typeName c.next
    return (some type, c)
  else .ok (none, c)

def function (statement : Parser Node) : Parser Node := fun c => do
  let (name, c) ← c.expect "NAME" "NAME"
  let (_, c) ← c.expect "(" "("
  let (params, c) ← parameterList c
  let (_, c) ← c.expect ")" ")"
  let (returns, c) ← returnType c
  let (body, c) ← block statement c
  return (.function name.lexeme params returns body (some name.location.position), c)

def guarded (build : Node → Node → Option Position → Node) (expression statement : Parser Node) :
    Parser Node := fun c => do
  let position := some c.head.location.position
  let (condition, c) ← expression c.next
  let (body, c) ← block statement c
  return (build condition body position, c)

def returning (expression : Parser Node) : Parser Node := fun c => do
  let position := some c.head.location.position
  let c := c.next
  if c.sees ["NEWLINE", "DEDENT", "EOF"] then
    let (_, c) ← endOfStatement c
    return (.returnStmt .absent position, c)
  else
    let (value, c) ← expression c
    let (_, c) ← endOfStatement c
    return (.returnStmt value position, c)

def displaying (expression : Parser Node) : Parser Node := fun c => do
  let position := some c.head.location.position
  let (value, c) ← expression c.next
  let (_, c) ← endOfStatement c
  return (.display value position, c)

/-- A statement by its first token, or by its second if the first is a name. -/
def dispatch (expression statement : Parser Node) : Parser Node := fun c =>
  if c.sees ["if"] then guarded .ifStmt expression statement c
  else if c.sees ["while"] then guarded .whileStmt expression statement c
  else if c.sees ["return"] then returning expression c
  else if c.sees ["display"] then displaying expression c
  else if c.head.kind = .name then
    if c.next.sees ["("] then function statement c
    else if c.next.head.kind = .name then declaration expression c
    else if c.next.sees ["="] then assignment expression c
    else .error (unexpected "a declaration or assignment after identifier" c.next.head)
  else .error (unexpected "statement" c.head)

/-- Blames nesting past the limit on the statement that starts at the cursor. -/
def blame (start : Token) : Except Fault α → Except Fault α
  | .error .tooDeep => .error (.rejected (.tooDeep (some start.location)))
  | result => result

/-- A statement, nested at most `depth` deep. -/
def statement : Nat → Parser Node
  | 0, _ => .error .tooDeep
  | depth + 1, c => blame c.head (dispatch (expression depth) (statement depth) c)

/-! ## Programs -/

/-- The program a token list stands for, nested at most `depth` deep. -/
def programTo (depth : Nat) (tokens : List Token) : Except Fault Node :=
  match Cursor.ofList? tokens with
  | none => .error .noTokens
  | some c => do
    let (body, _) ← statementsTo ["EOF"] (statement depth) c.room c
    return .program body programPosition

def descend (tokens : List Token) : Except Fault Node := programTo Node.nestingLimit tokens

end TillLang.Parse
