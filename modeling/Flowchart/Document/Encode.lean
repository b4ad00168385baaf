/-
Flow documents as JSON.

Kinds are written by their first names. The children of a node are left out when there are none, and the condition of an
edge when it has none.
-/
import Flowchart.Document.Basic
import Flowchart.Json.Write

namespace Flowchart

/-- a node as JSON -/
def Node.toJson (n : Node) : Json :=
  .obj ([("id", .str n.id), ("type", .str n.kind.name), ("properties", .obj n.properties)] ++
    if n.children.isEmpty then [] else [("children", .arr (n.children.map .str))])

/-- an edge as JSON -/
def Edge.toJson (e : Edge) : Json :=
  .obj ([("source", .str e.source), ("target", .str e.target)] ++
    match e.condition with
    | none => []
    | some b => [("conditionValue", .bool b)])

/-- a document as JSON -/
def Document.toJson (d : Document) : Json :=
  .obj [("nodes", .arr (d.nodes.map Node.toJson)), ("edges", .arr (d.edges.map Edge.toJson))]

end Flowchart
