/-
  TillLang.Pipeline — from source text to a run.

  A source text is split into tokens, parsed by one of two front ends, checked, and run.
  Each phase fails for causes of its own, and a later phase never sees what an earlier one
  refused.
-/

import TillLang.Eval.Machine
import TillLang.Grammar.Run
import TillLang.Parse.Descent
import TillLang.Syntax.Codec
import TillLang.Syntax.Equality
import TillLang.Syntax.Printer
import TillLang.Token.Layout
import TillLang.Typing.Check

namespace TillLang

inductive Frontend where
  | descent
  /-- By the table of the grammar. -/
  | table
  deriving DecidableEq, Repr

def Frontend.names : List (String × Frontend) := [("descent", .descent), ("lark", .table)]

def Frontend.ofName? (name : String) : Option Frontend := Frontend.names.lookup name

def Frontend.choices : String :=
  ", ".intercalate (Frontend.names.map fun n => Text.inspect n.1)

/-- Why a phase fails. -/
inductive Error where
  | lexical (error : Token.Error)
  | parse (fault : Parse.Fault)
  | typing (fault : Typing.Fault)
  | runtime (stop : Eval.Stop)
  | load (fault : Syntax.LoadFault)
  | print (fault : Syntax.ProgramFault)
  | unknownFrontend (name : String)
  | noFrontend
  /-- A value that is no tree was to be written as JSON. -/
  | notTree (className : String)
  /-- A tree is too deep to be written as JSON or compared. -/
  | tooDeep

/-- The program of a source text, nested at most `depth` deep. -/
def parseTo (frontend : Frontend) (depth : Nat) (source : String) : Except Error Node := do
  let tokens ← (tokenize source).mapError .lexical
  match frontend with
  | .descent => (Parse.programTo depth tokens).mapError .parse
  | .table => (Grammar.programTo depth tokens).mapError .parse

def parseWith (frontend : Frontend) (source : String) : Except Error Node :=
  parseTo frontend Node.nestingLimit source

/-- The program of a source text, if there is a front end to parse it with. -/
def parseBy (frontend : Option Frontend) (source : String) : Except Error Node :=
  match frontend with
  | some f => parseWith f source
  | none => .error .noFrontend

def parseSource (frontend : String) (source : String) : Except Error Node :=
  match Frontend.ofName? frontend with
  | some f => parseWith f source
  | none => .error (.unknownFrontend frontend)

/-- Checks a program on its own. -/
def checkProgram (program : Node) : Except Error Unit :=
  (Typing.check .start program).2.mapError .typing

/-- The checked program of a source text. -/
def compile (frontend : String) (source : String) : Except Error Node := do
  let program ← parseSource frontend source
  checkProgram program
  return program

def load (j : Json) : Except Error RawNode := (Syntax.decode j).mapError .load

def encode (tree : RawNode) : Except Error Json :=
  match Syntax.encode? tree with
  | some j => .ok j
  | none => .error .tooDeep

/-- The JSON value of a value that is taken for a tree; only the missing value is one. -/
def encodeValue (value : Value) : Except Error Json :=
  if value.isNone then .ok .null else .error (.notTree value.className)

def format (program : Node) : Except Error String :=
  (Syntax.printProgram program).mapError .print

/-- Whether two trees are equal up to positions. -/
def equal (a b : Node) : Except Error Bool :=
  match Syntax.same a b with
  | some answer => .ok answer
  | none => .error .tooDeep

def execute (detail : Nat) (program : Node) (w : Eval.World) : Except Error Unit × Eval.World :=
  let (result, w) := Eval.run detail program w
  (result.mapError .runtime, w)

/-! ## Sessions -/

/-- A checker and a machine that are kept over several programs. -/
structure Session where
  scopes : Typing.Scopes
  world : Eval.World
  detail : Nat

def Session.start (detail : Nat) : Session := ⟨.start, .start, detail⟩

def Session.check (s : Session) (program : Node) : Except Error Unit × Session :=
  let (scopes, answer) := Typing.check s.scopes program
  (answer.mapError .typing, { s with scopes })

def Session.run (s : Session) (program : Node) : Except Error Unit × Session :=
  let (result, world) := execute s.detail program s.world
  (result, { s with world })

/-! ## Messages -/

def notProgramMessage? : Node.NotProgram → Option String
  | .noBody => none
  | .notList className => some ("'" ++ className ++ "' object is not iterable")

/-- The name of the class of a node in messages of the machine. -/
def classText (className : String) : String :=
  if className = Node.absent.className then "<class '" ++ className ++ "'>"
  else "<class 'till.ast." ++ className ++ "'>"

def Eval.Stop.message? : Eval.Stop → Option String
  | .failure reason position => some (failureMessage reason position)
  | .notStatement className =>
    some ("execute: unexpected node type " ++ classText className)
  | .notExpression className =>
    some ("evaluate: unexpected node type " ++ classText className)
  | .notText index typeName =>
    some ("sequence item " ++ toString index ++ ": expected str instance, " ++ typeName ++
      " found")
  | .notProgram cause => notProgramMessage? cause
  | .missingKey name => some (Text.inspect name)
  | .returned _ | .tooDeep | .endless | .missingPart | .noScope => none

def Parse.Fault.message? : Parse.Fault → Option String
  | .rejected error => some error.message
  | .unreadableNumber lexeme =>
    some ("could not convert string to float: " ++ Text.inspect lexeme)
  | .unreadableText (.unknownEscape c) => some (Text.inspect (String.singleton c))
  | .unreadableText .danglingBackslash | .tooDeep | .noTokens | .misshapen => none

/-- The message on a shown value that names no front end. -/
def frontendMessage (shown : String) : String :=
  "unknown frontend " ++ shown ++ "; expected one of (" ++ Frontend.choices ++ ")"

def Error.message? : Error → Option String
  | .lexical error => some error.message
  | .parse fault => fault.message?
  | .typing (.violation reason position) => some (Typing.violationMessage reason position)
  | .typing (.notProgram cause) => notProgramMessage? cause
  | .typing .missingPart | .typing .tooDeep => none
  | .runtime stop => stop.message?
  | .load fault => fault.message?
  | .print (.notProgram cause) => notProgramMessage? cause
  | .print (.print fault) => fault.message?
  | .unknownFrontend name => some (frontendMessage (Text.inspect name))
  | .noFrontend => some (frontendMessage (Json.list []).inspect)
  | .notTree className => some ("Unsupported node for serialization: " ++ className)
  | .tooDeep => none

/-- Whether an error is one of the language: it belongs to a phase and names it. The other
errors are those of odd trees and token lists. -/
def Error.isPhase : Error → Bool
  | .lexical _ | .parse (.rejected _) | .typing (.violation ..) | .runtime (.failure ..) => true
  | _ => false

end TillLang
