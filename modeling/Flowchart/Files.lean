/-
A directory of files.

Files have names with `/` between the directories that lead to them. `read` follows a path from the directory: `.`
stays, `..` goes up, and a path through a file leads nowhere. Nothing is known of what lies outside but that it is a
directory. A path and each name in it have a greatest length in bytes; that of a name is looked at only where the name
is looked up.
-/
import Flowchart.Error

namespace Flowchart

/-- the files below a directory -/
structure Files where
  entries : List (String × ByteArray)

namespace Files

/-- where a path leads -/
inductive Place where
  | directory (steps : List String)
  | file (content : ByteArray)
  | outside

/-- the steps of a path -/
def steps (path : String) : List String := path.splitOn "/"

/-- how many bytes a path may have -/
def longestPath : Nat := 4095

/-- how many bytes a name in a path may have -/
def longestName : Nat := 255

/-- why a path leads nowhere, whatever files there are -/
def pathFault? (path : String) : Option FileFault :=
  if path.toList.contains '\x00' then some .nullInPath
  else if longestPath < path.utf8ByteSize then some .nameTooLong
  else if path = "" then some .notFound
  else none

/-- what stands at a place inside the directory -/
def lookup (fs : Files) (trail : List String) : Option Place :=
  match fs.entries.find? fun e => steps e.1 = trail with
  | some e => some (.file e.2)
  | none =>
    if fs.entries.any fun e => trail.isPrefixOf (steps e.1) then some (.directory trail) else none

/-- one step of a path -/
def step (fs : Files) (place : Place) (name : String) : Except FileFault Place :=
  match place with
  | .file _ => .error .notDirectory
  | .outside =>
    if name = "" ∨ name = "." ∨ name = ".." then .ok .outside
    else if longestName < name.utf8ByteSize then .error .nameTooLong
    else .error .notFound
  | .directory trail =>
    if name = "" ∨ name = "." then .ok place
    else if name = ".." then .ok (if trail.isEmpty then .outside else .directory trail.dropLast)
    else if longestName < name.utf8ByteSize then .error .nameTooLong
    else
      match fs.lookup (trail ++ [name]) with
      | some place => .ok place
      | none => .error .notFound

/-- the text of the file at a path -/
def read (fs : Files) (path : String) : Except FileFault String := do
  if let some fault := pathFault? path then throw fault
  let start := if path.startsWith "/" then Place.outside else .directory []
  match ← (steps path).foldlM fs.step start with
  | .file content =>
    match String.fromUTF8? content with
    | some s => return s
    | none => throw .notText
  | _ => throw .isDirectory

end Files

end Flowchart
