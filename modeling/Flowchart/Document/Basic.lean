/-
Flow documents.

A flow is a list of nodes and a list of edges between them, in the order of the document. An edge can carry a condition:
it is then taken when the test of a conditional node has that outcome. Loop nodes list the nodes inside them.
-/
import Flowchart.Json.Basic

namespace Flowchart

/-- what a node of a flow does -/
inductive NodeKind where
  | start
  | setVariable
  | conditional
  | httpCall
  | loop
  | finish
deriving DecidableEq, Repr, Inhabited

namespace NodeKind

/-- all kinds -/
def all : List NodeKind := [.start, .setVariable, .conditional, .httpCall, .loop, .finish]

/-- the name of a kind -/
def name : NodeKind → String
  | .start => "start"
  | .setVariable => "set-variable"
  | .conditional => "if"
  | .httpCall => "http-call"
  | .loop => "loop"
  | .finish => "end"

/-- the second name that documents may use for a kind -/
def otherName : NodeKind → String
  | .start => "start-node"
  | .setVariable => "set-variable-node"
  | .conditional => "if-node"
  | .httpCall => "http-node"
  | .loop => "loop-node"
  | .finish => "end-node"

/-- all names that documents may use, in the order in which messages list them -/
def names : List String := all.flatMap fun k => [k.name, k.otherName]

/-- the kind with a name -/
def ofName? (s : String) : Option NodeKind := all.find? fun k => k.name == s || k.otherName == s

end NodeKind

/-- a node of a flow -/
structure Node where
  id : String
  kind : NodeKind
  /-- sorted by key -/
  properties : List (String × Json) := []
  /-- the ids of the nodes inside a loop -/
  children : List String := []
deriving Repr, Inhabited

/-- the first of these properties that the node has -/
def Node.property? (n : Node) (names : List String) : Option Json :=
  names.findSome? fun name => Json.get? name n.properties

/-- an edge of a flow -/
structure Edge where
  source : String
  target : String
  condition : Option Bool := none
deriving DecidableEq, Repr, Inhabited

/-- a flow -/
structure Document where
  nodes : List Node := []
  edges : List Edge := []
deriving Repr, Inhabited

end Flowchart
