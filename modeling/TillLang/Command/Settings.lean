/-
  TillLang.Command.Settings — what a command line asks for.

  The arguments are taken from left to right. The first operand is the program file, and
  every parameter takes the operand behind it when it has no value of its own. A repeated
  parameter takes its last value, a repeated switch counts. Asking for help ends the
  reading at once; so does the first complaint. Arguments that are left over are complained
  about last.
-/

import TillLang.Command.Argument
import TillLang.Command.Path
import TillLang.Pipeline

namespace TillLang.Command

inductive Task where
  | runSource
  | mode (m : Mode)
  deriving DecidableEq, Repr

structure Job where
  task : Task
  path : String
  frontend : Option Frontend
  /-- How much of the run is logged. -/
  detail : Nat
  deriving DecidableEq, Repr

inductive Stop where
  | help
  | complaint (c : Complaint)
  deriving DecidableEq, Repr

/-- What the arguments read so far ask for. -/
structure Settings where
  program : Option String := none
  detail : Nat := 0
  /-- The front end, unless it was taken away. -/
  frontend : Option Frontend := some .descent
  mode : Option (Mode × String) := none
  unused : List String := []

namespace Settings

def leave (s : Settings) (text : String) : Settings := { s with unused := s.unused ++ [text] }

def turnOn (s : Settings) : Switch → Except Stop Settings
  | .help => .error .help
  | .verbose => .ok { s with detail := s.detail + 1 }

/-- Asks for a mode, which is refused after another one. -/
def ask (s : Settings) (m : Mode) (path : String) : Except Stop Settings :=
  match s.mode with
  | some (earlier, _) =>
    if earlier = m then .ok { s with mode := some (m, path) }
    else .error (.complaint (.conflict m earlier))
  | none => .ok { s with mode := some (m, path) }

/-- Takes the value of a parameter away: a mode is asked for without a file, and there is
no front end to parse with. -/
def takeAway (s : Settings) : Parameter → Except Stop Settings
  | .frontend => .ok { s with frontend := none }
  | .mode m => s.ask m ""

/-- Gives a parameter its value. Two dashes are no value. -/
def give (s : Settings) (value : String) (p : Parameter) : Except Stop Settings :=
  if value = "--" then s.takeAway p
  else match p with
    | .mode m => s.ask m value
    | .frontend =>
      match Frontend.ofName? value with
      | some frontend => .ok { s with frontend := some frontend }
      | none => .error (.complaint (.unknownFrontend value Frontend.choices))

/-- The switches behind one dash: `s`, then one for each letter. The letters from the first
that is no switch on are taken for a value of the switch before them, which has none. -/
def cluster (s : Switch) : List Char → Except Complaint (List Switch)
  | [] => .ok [s]
  | letter :: rest =>
    match Switch.ofLetter? letter with
    | none => .error (.ignoredValue s (String.ofList (letter :: rest)))
    | some next => (s :: ·) <$> cluster next rest

/-- Reads the arguments after those that gave `s`; `fresh` when the last of those was the
program file. Two dashes count as left over unless they come before the program file or
right behind it. -/
def read (s : Settings) (fresh : Bool) : List Argument → Except Stop Settings
  | [] => .ok s
  | .operand text :: rest =>
    if s.program.isNone then read { s with program := some text } true rest
    else read (s.leave text) false rest
  | .separator :: rest =>
    if s.program.isNone || fresh then read s false rest else read (s.leave "--") false rest
  | .unknown text :: rest => read (s.leave text) false rest
  | .valuedSwitch switch value :: _ => .error (.complaint (.ignoredValue switch value))
  | .switch switch letters :: rest =>
    match cluster switch letters with
    | .error c => .error (.complaint c)
    | .ok switches => do read (← switches.foldlM turnOn s) false rest
  | .parameter p (some value) :: rest => do read (← s.give value p) false rest
  | .parameter p none :: .operand value :: rest => do read (← s.give value p) false rest
  | .parameter p none :: _ => .error (.complaint (.missingValue p))

/-- The job that the arguments ask for. A file name without characters counts as none. -/
def job (s : Settings) : Except Complaint Job :=
  let named (task : Task) (path : String) : Job := ⟨task, Path.normalize path, s.frontend, s.detail⟩
  if !s.unused.isEmpty then .error (.unrecognized s.unused)
  else match s.mode.filter (·.2 != ""), s.program.filter (· != "") with
    | some (m, path), _ => .ok (named (.mode m) path)
    | none, some path => .ok (named .runSource path)
    | none, none => .error .missingProgram

end Settings

def Job.ofArguments (arguments : List String) : Except Stop Job := do
  let arguments ← (Argument.classifyAll arguments).mapError .complaint
  let settings ← Settings.read {} false arguments
  settings.job.mapError .complaint

end TillLang.Command
