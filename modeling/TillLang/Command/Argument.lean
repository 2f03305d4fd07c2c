/-
  TillLang.Command.Argument — what a single argument of the command line is.

  An argument names a file, turns a switch on, gives a parameter, ends the options, or
  looks like an option that nobody knows. An option may be cut short as long as one
  spelling is left that it can mean, a value may follow it after an equals sign, and
  one-letter switches may share a dash. An argument that starts with a dash still names a
  file when it is a negative number or holds a space.
-/

import TillLang.Text.Inspect
import TillLang.Text.Numeral

namespace TillLang.Command

/-- The uses of a file besides running it as source; at most one may be asked for. -/
inductive Mode where
  | emitTree
  | runTree
  | format
  deriving DecidableEq, Repr

inductive Switch where
  | help
  | verbose
  deriving DecidableEq, Repr

inductive Parameter where
  | frontend
  | mode (m : Mode)
  deriving DecidableEq, Repr

inductive Flag where
  | switch (s : Switch)
  | parameter (p : Parameter)
  deriving DecidableEq, Repr

/-- The spellings of the options, in the order in which messages list them. -/
def Flag.spellings : List (String × Flag) :=
  [("-h", .switch .help), ("--help", .switch .help), ("-v", .switch .verbose),
   ("--frontend", .parameter .frontend), ("--emit-ast", .parameter (.mode .emitTree)),
   ("--ast", .parameter (.mode .runTree)), ("--format", .parameter (.mode .format))]

def Flag.ofSpelling? (text : String) : Option Flag := Flag.spellings.lookup text

def Flag.title (f : Flag) : String :=
  "/".intercalate ((Flag.spellings.filter (·.2 = f)).map (·.1))

/-- The switches with a spelling of one letter. Only switches have one. -/
def Switch.ofLetter? : Char → Option Switch
  | 'h' => some .help
  | 'v' => some .verbose
  | _ => none

inductive Complaint where
  | ambiguous (given : String) (meanings : List String)
  | ignoredValue (s : Switch) (value : String)
  | missingValue (p : Parameter)
  | unknownFrontend (name choices : String)
  | conflict (asked earlier : Mode)
  | unrecognized (arguments : List String)
  | missingProgram
  deriving DecidableEq, Repr

def Complaint.message : Complaint → String
  | .ambiguous given meanings =>
    "ambiguous option: " ++ given ++ " could match " ++ ", ".intercalate meanings
  | .ignoredValue s value =>
    "argument " ++ (Flag.switch s).title ++ ": ignored explicit argument " ++ Text.inspect value
  | .missingValue p => "argument " ++ (Flag.parameter p).title ++ ": expected one argument"
  | .unknownFrontend name choices =>
    "argument " ++ (Flag.parameter .frontend).title ++ ": invalid choice: " ++
      Text.inspect name ++ " (choose from " ++ choices ++ ")"
  | .conflict asked earlier =>
    "argument " ++ (Flag.parameter (.mode asked)).title ++ ": not allowed with argument " ++
      (Flag.parameter (.mode earlier)).title
  | .unrecognized arguments => "unrecognized arguments: " ++ " ".intercalate arguments
  | .missingProgram => "missing program file; or use --emit-ast/--ast/--format"

inductive Argument where
  /-- The name of a file, or the value of the parameter in front of it. -/
  | operand (text : String)
  /-- Two dashes: all that follows are operands. -/
  | separator
  /-- A switch, and the letters after it behind the same dash. -/
  | switch (s : Switch) (letters : List Char)
  | valuedSwitch (s : Switch) (value : String)
  /-- A parameter, and its value if that stands in the same argument. -/
  | parameter (p : Parameter) (value : Option String)
  | unknown (text : String)
  deriving DecidableEq, Repr

namespace Argument

def isDigit (c : Char) : Bool := (Text.digitValue? c).isSome

/-- Digits, or digits after a point with or without digits before it. -/
def isNumber (text : List Char) : Bool :=
  match text.dropWhile isDigit with
  | [] => !text.isEmpty
  | '.' :: fraction => !fraction.isEmpty && fraction.all isDigit
  | _ => false

def withoutLineBreak (text : List Char) : List Char :=
  if text.getLast? = some '\n' then text.dropLast else text

/-- Whether an argument with a dash in front of `text` names a file after all. -/
def isPlain (text : List Char) : Bool :=
  isNumber (withoutLineBreak text) || text.contains ' '

def ofFlag : Flag → Option String → Argument
  | .switch s, none => .switch s []
  | .switch s, some value => .valuedSwitch s value
  | .parameter p, value => .parameter p value

/-- An option of one letter, by its flag and by the value behind its equals sign. There the
value of a switch is more letters behind the same dash. -/
def ofShortFlag : Flag → Option String → Argument
  | .switch s, some value =>
    if value = "" then .valuedSwitch s value else .switch s value.toList
  | flag, value => ofFlag flag value

/-- The part of an argument in front of its first equals sign. -/
def name (text : List Char) : String := String.ofList (text.takeWhile (· != '='))

def value? (text : List Char) : Option String :=
  match text.dropWhile (· != '=') with
  | [] => none
  | _ :: value => some (String.ofList value)

def meanings (name : String) : List (String × Flag) :=
  Flag.spellings.filter fun s => name.toList.isPrefixOf s.1.toList

def ofUnknown (text : List Char) : Argument :=
  let whole := String.ofList ('-' :: text)
  if isPlain text then .operand whole else .unknown whole

/-- What an argument is, if no two dashes came before it. -/
def classify (text : String) : Except Complaint Argument :=
  let chars := text.toList
  match Flag.ofSpelling? (name chars), chars with
  | some flag, '-' :: '-' :: _ => .ok (ofFlag flag (value? chars))
  | some flag, _ => .ok (ofShortFlag flag (value? chars))
  | none, '-' :: '-' :: rest =>
    match meanings (name chars) with
    | [] => .ok (ofUnknown ('-' :: rest))
    | [(_, flag)] => .ok (ofFlag flag (value? chars))
    | several => .error (.ambiguous text (several.map (·.1)))
  | none, '-' :: letter :: rest =>
    match Switch.ofLetter? letter with
    | some s => .ok (.switch s rest)
    | none => .ok (ofUnknown (letter :: rest))
  | none, _ => .ok (.operand text)

def classifyAll : List String → Except Complaint (List Argument)
  | [] => .ok []
  | text :: rest =>
    if text = "--" then .ok (.separator :: rest.map .operand)
    else do
      let first ← classify text
      return first :: (← classifyAll rest)

end Argument

end TillLang.Command
