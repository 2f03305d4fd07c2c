/-
  TillLang.Main — the command line.

  The arguments name at most one file. It is read, the job is done, and what the job
  printed and wrote is put out.
-/

import TillLang.Command.Outcome

namespace TillLang.Command

/-- What is found under a name in the file system. -/
def findEntry (path : String) : IO Entry := do
  try
    let bytes ← IO.FS.readBinFile path
    return .file bytes.toList
  catch
    | .noFileOrDirectory .. => return .absent
    | _ => return .directory

/-- A line on what made a command crash. -/
def Crash.message : Crash → String
  | .directory => "Error: the file cannot be read"
  | .longName => "Error: the file name is too long"
  | .encoding fault => "Error: " ++ fault.message
  | .error e => "Error: " ++ e.message?.getD "the program is nested too deeply or misshapen"

/-- Prints and writes an outcome, and gives its exit status. -/
def Outcome.putOut (o : Outcome) : IO UInt32 := do
  for (name, text) in o.written do
    IO.FS.writeFile name text
  IO.print o.stdout
  (← IO.getStdout).flush
  IO.eprint o.stderr
  match o.ending with
  | .exit status => return UInt32.ofNat status
  | .crash c =>
    IO.eprintln c.message
    return 1
  | .leftOpen =>
    IO.eprintln "Error: a name in the tree is no text"
    return 1

end TillLang.Command

open TillLang.Command in
def main (arguments : List String) : IO UInt32 := do
  match Job.ofArguments arguments with
  | .error stop => (Outcome.ofStop stop).putOut
  | .ok job => (job.perform (← findEntry job.path)).putOut
