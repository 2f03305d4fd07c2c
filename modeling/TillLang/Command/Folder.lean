/-
  TillLang.Command.Folder — what is found under the name of a file.

  A folder is given by its files. A path is followed step by step from the folder, or from
  the root: every step but the last has to lead to a folder, two dots lead out of one, and
  outside of the given folder there are only the folders around it.
-/

import TillLang.Command.Path

namespace TillLang.Command

inductive Entry where
  | absent
  | directory
  | longName
  | file (bytes : List UInt8)

/-- The files of a folder, by the steps that lead to them. -/
structure Folder where
  files : List (List String × List UInt8)

namespace Folder

def ofFiles (files : List (String × List UInt8)) : Folder :=
  ⟨files.map fun f => (Path.steps f.1, f.2)⟩

inductive Place where
  /-- A place in the folder, by the steps to it, the last one first. -/
  | inside (back : List String)
  /-- One of the folders around it. -/
  | outside

def entryAt (folder : Folder) : Place → Entry
  | .outside => .directory
  | .inside back =>
    let steps := back.reverse
    match folder.files.find? (·.1 = steps) with
    | some f => .file f.2
    | none =>
      if steps.isEmpty || folder.files.any (steps.isPrefixOf ·.1) then .directory else .absent

def follow (folder : Folder) (place : Place) : List String → Entry
  | [] => folder.entryAt place
  | step :: rest =>
    match folder.entryAt place, place with
    | .directory, .outside =>
      if step = ".." then folder.follow .outside rest
      else if Path.isLongStep step then .longName
      else .absent
    | .directory, .inside back =>
      if step = ".." then
        match back with
        | [] => folder.follow .outside rest
        | _ :: back => folder.follow (.inside back) rest
      else if Path.isLongStep step then .longName
      else folder.follow (.inside (step :: back)) rest
    | _, _ => .absent

/-- What is found under a path. No name holds the null character. -/
def find (folder : Folder) (path : String) : Entry :=
  if path.toList.contains '\x00' then .absent
  else if Path.isLong path then .longName
  else folder.follow (if Path.root path = "" then .inside [] else .outside) (Path.steps path)

def holds (folder : Folder) (path : String) : Bool :=
  folder.files.any (·.1 = Path.steps path)

end Folder

end TillLang.Command
