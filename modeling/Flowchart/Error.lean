/-
What can go wrong on the way from a flow to its source text.

Each error is its cause. `message` is its wording and `exitCode` the number with which the command line reports it.
-/
import Flowchart.Formula
import Flowchart.Json.Mismatch

namespace Flowchart

/-- why a file could not be read as text -/
inductive FileFault where
  | nullInPath
  | nameTooLong
  | notFound
  | notDirectory
  | isDirectory
  | notText
deriving DecidableEq, Repr

/-- the wording of a file fault -/
def FileFault.message : FileFault → String
  | .nullInPath => "file name contained an unexpected NUL byte"
  | .nameTooLong => "File name too long (os error 36)"
  | .notFound => "No such file or directory (os error 2)"
  | .notDirectory => "Not a directory (os error 20)"
  | .isDirectory => "Is a directory (os error 21)"
  | .notText => "stream did not contain valid UTF-8"

/-- a flow that is not a graph that can be compiled -/
inductive GraphError where
  | missingStart (found : Nat)
  | missingNode (id requiredBy : String)
  | danglingEdge (source target missing : String)
  | cyclic (id via : String)
  | duplicateNode (id : String)
  | missingProperty (id property : String)
deriving DecidableEq, Repr

namespace GraphError

/-- the wording of a graph error -/
def message : GraphError → String
  | .missingStart found => "Expected exactly one start node, but the flow contains " ++ toString found
  | .missingNode id requiredBy => "Node '" ++ id ++ "' not found, which is required by node '" ++ requiredBy ++ "'"
  | .danglingEdge source target missing =>
    "Edge '" ++ source ++ "' -> '" ++ target ++ "' references node '" ++ missing ++ "', which does not exist"
  | .cyclic id via =>
    "Node '" ++ id ++ "' is reached again while it is still being compiled (cycle via '" ++ via ++ "')"
  | .duplicateNode id => "Node id '" ++ id ++ "' is used by more than one node"
  | .missingProperty id property => "Node '" ++ id ++ "' is missing its required '" ++ property ++ "' property"

/-- the number of a graph error -/
def exitCode : GraphError → Nat
  | .missingStart _ => 10
  | .missingNode _ _ => 11
  | .danglingEdge _ _ _ => 12
  | .cyclic _ _ => 13
  | .duplicateNode _ => 14
  | .missingProperty _ _ => 15

end GraphError

/-- what can go wrong -/
inductive Error where
  | file (path : String) (fault : FileFault)
  | document (cause : ReadError)
  | graph (cause : GraphError)
  | property (id name : String) (cause : Unparsable)
  | unknownKind (tag : String)
  | tree (cause : ReadError)
deriving DecidableEq, Repr

namespace Error

/-- the wording of an error -/
def message : Error → String
  | .file path fault => "Failed to read '" ++ path ++ "': " ++ fault.message
  | .document cause => "Failed to parse flow document: " ++ cause.message
  | .graph cause => cause.message
  | .property id name cause => "Invalid '" ++ name ++ "' on node '" ++ id ++ "': " ++ cause.message
  | .unknownKind tag => "Unknown tree node kind '" ++ tag ++ "'"
  | .tree cause => "Malformed tree: " ++ cause.message

/-- the number of an error -/
def exitCode : Error → Nat
  | .file _ _ => 1
  | .document _ => 2
  | .graph cause => cause.exitCode
  | .property _ _ _ => 20
  | .unknownKind _ => 30
  | .tree _ => 31

end Error

end Flowchart
