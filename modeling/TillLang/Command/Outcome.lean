/-
  TillLang.Command.Outcome — what a command line does.

  A job uses one file. What it prints, what it writes and how it ends follow from its
  arguments and from what is found under the name of that file. Errors of the language and
  files that are missing or hold no tree are reported and make the exit status 1; misuse of
  the arguments is reported with the usage and makes it 2. All else that goes wrong is a
  crash.
-/

import TillLang.Command.Folder
import TillLang.Command.Settings
import TillLang.Json.Reader
import TillLang.Json.Writer
import TillLang.Text.LineEnd
import TillLang.Text.Utf8

namespace TillLang.Command

/-- What goes wrong beyond the errors that are reported. -/
inductive Crash where
  | directory
  /-- The name of a file is longer than names may be. -/
  | longName
  | encoding (fault : Text.Utf8.Fault)
  | error (e : Error)

inductive Ending where
  | exit (status : Nat)
  | crash (c : Crash)
  /-- The tree in the file has names that are no texts. What is done with such a tree is left open. -/
  | leftOpen

structure Outcome where
  ending : Ending := .exit 0
  stdout : String := ""
  stderr : String := ""
  /-- The files written, by their names. -/
  written : List (String × String) := []

/-! ## Usage -/

def usage : List String :=
  ["usage: till [-h] [-v] [--frontend \x7bdescent,lark\x7d]",
   "            [--emit-ast TILL_FILE | --ast AST_JSON_FILE | --format TILL_FILE]",
   "            [program]"]

def help : List String :=
  usage ++
  ["",
   "Till language interpreter",
   "",
   "positional arguments:",
   "  program               Till program file (.till) to execute",
   "",
   "options:",
   "  -h, --help            show this help message and exit",
   "  -v                    increase debug verbosity (can be repeated)",
   "  --frontend \x7bdescent,lark\x7d",
   "                        parser used for source files (default: descent)",
   "  --emit-ast TILL_FILE  emit AST JSON for the given .till file",
   "  --ast AST_JSON_FILE   type check and execute AST from a JSON file",
   "  --format TILL_FILE    print the given .till file in canonical layout"]

namespace Outcome

def ofStop : Stop → Outcome
  | .help => { stdout := Text.joinLines help }
  | .complaint c =>
    { ending := .exit 2, stderr := Text.joinLines (usage ++ ["till: error: " ++ c.message]) }

def crashed (c : Crash) : Outcome := { ending := .crash c }

/-- A report on one line and exit status 1. -/
def refused (report : String) : Outcome := { ending := .exit 1, stderr := report ++ "\n" }

/-- An outcome that an error brings to its end. -/
def fail (o : Outcome) (e : Error) : Outcome :=
  match e.message?, e.isPhase with
  | some message, true => { o with ending := .exit 1, stderr := o.stderr ++ message ++ "\n" }
  | _, _ => { o with ending := .crash (.error e) }

def ofExcept : Except Error Outcome → Outcome
  | .ok o => o
  | .error e => fail {} e

end Outcome

/-! ## Jobs -/

def readFile (bytes : List UInt8) : Except Text.Utf8.Fault String :=
  (fun text => String.ofList (Text.unifyLineEnds text)) <$> Text.Utf8.decode bytes

def logFile : String := "debug.txt"

/-- Runs a checked program. The log is written whenever one is asked for. -/
def runChecked (detail : Nat) (program : Node) : Outcome :=
  let (result, world) := execute detail program .start
  let outcome : Outcome := {
    stdout := Text.joinLines world.printed.toList
    written := if detail = 0 then [] else [(logFile, Text.joinLines world.log.toList)] }
  match result with
  | .ok () => outcome
  | .error e => outcome.fail e

def checkAndRun (detail : Nat) (program : Node) : Outcome :=
  .ofExcept do
    checkProgram program
    return runChecked detail program

def treeFile (path : String) : String := path ++ ".ast.json"

/-- Whether a path is too long to write to. -/
def isTooLong (path : String) : Bool :=
  Path.isLong path || (Path.steps path).any Path.isLongStep

/-- Writes the tree of a source file. -/
def emitTree (frontend : Option Frontend) (path source : String) : Outcome :=
  .ofExcept do
    let tree ← encode (← parseBy frontend source).raw
    if isTooLong (treeFile path) then return .crashed .longName
    return { stdout := treeFile path ++ "\n", written := [(treeFile path, tree.indented)] }

def formatSource (frontend : Option Frontend) (source : String) : Outcome :=
  .ofExcept do return { stdout := ← format (← parseBy frontend source) }

def runSource (frontend : Option Frontend) (detail : Nat) (source : String) : Outcome :=
  .ofExcept do return checkAndRun detail (← parseBy frontend source)

inductive TreeFault where
  | encoding (fault : Text.Utf8.Fault)
  | json (text : String) (fault : Json.Fault)
  | load (fault : Syntax.LoadFault)

/-- The report on a file without a tree. A position with too few parts and a number past
all bounds are not reported. -/
def TreeFault.report : TreeFault → Except Crash String
  | .encoding fault => .ok fault.message
  | .json text fault => .ok (fault.message text)
  | .load .tooDeep => .ok "maximum recursion depth exceeded"
  | .load fault =>
    match fault.message? with
    | some message => .ok message
    | none => .error (.error (.load fault))

def readTree (bytes : List UInt8) : Except TreeFault RawNode := do
  let text ← (readFile bytes).mapError .encoding
  let value ← (Json.parse Node.nestingLimit text).mapError (.json text)
  (Syntax.decode value).mapError .load

def refuseTree (path : String) (fault : TreeFault) : Outcome :=
  match fault.report with
  | .ok message => .refused ("Error: invalid AST file " ++ path ++ ": " ++ message)
  | .error crash => .crashed crash

def runTree (detail : Nat) (path : String) (bytes : List UInt8) : Outcome :=
  match readTree bytes with
  | .ok tree =>
    match tree.node? with
    | some program => checkAndRun detail program
    | none => { ending := .leftOpen }
  | .error fault => refuseTree path fault

def withSource (bytes : List UInt8) (use : String → Outcome) : Outcome :=
  match readFile bytes with
  | .ok source => use source
  | .error fault => .crashed (.encoding fault)

def Job.useBytes (job : Job) (bytes : List UInt8) : Outcome :=
  match job.task with
  | .runSource => withSource bytes (runSource job.frontend job.detail)
  | .mode .emitTree => withSource bytes (emitTree job.frontend job.path)
  | .mode .format => withSource bytes (formatSource job.frontend)
  | .mode .runTree => runTree job.detail job.path bytes

/-- Does a job with what is found under the name of its file. -/
def Job.perform (job : Job) : Entry → Outcome
  | .absent => .refused ("Error: file " ++ job.path ++ " not found")
  | .directory => .crashed .directory
  | .longName => .crashed .longName
  | .file bytes => job.useBytes bytes

/-- What a command line does in a folder. -/
def Folder.perform (folder : Folder) (arguments : List String) : Outcome :=
  match Job.ofArguments arguments with
  | .error stop => .ofStop stop
  | .ok job => job.perform (folder.find job.path)

end TillLang.Command
