/-
  TillLang.Command.Path — file names as they are used and shown.

  Empty steps and steps to the place itself are dropped from a path; a name without any
  step left is the place itself. One or more slashes in front lead to the root, except
  that exactly two are kept as they are. A step has at most 255 bytes and a path at most
  4095.
-/

namespace TillLang.Command.Path

def steps (path : String) : List String :=
  (path.splitOn "/").filter fun step => step != "" && step != "."

/-- The slashes kept in front of a path. -/
def root (path : String) : String :=
  match (path.toList.takeWhile (· = '/')).length with
  | 0 => ""
  | 2 => "//"
  | _ => "/"

/-- The shown form of a path. -/
def normalize (path : String) : String :=
  let shown := root path ++ "/".intercalate (steps path)
  if shown = "" then "." else shown

/-- The most bytes a step may have. -/
def maxStep : Nat := 255

/-- The most bytes a path may have. -/
def maxPath : Nat := 4095

def isLongStep (step : String) : Bool := maxStep < step.utf8ByteSize

def isLong (path : String) : Bool := maxPath < path.utf8ByteSize

end TillLang.Command.Path
