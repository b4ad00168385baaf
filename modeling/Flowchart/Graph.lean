/-
Flow graphs.

A graph is a flow in which every node has an id of its own and every edge runs between nodes. `ofDocument` checks this
and builds two indexes: from an id to its node, and from a node to its outgoing edges in the order of the document.
-/
import Flowchart.Document.Basic
import Flowchart.Error
import Flowchart.Event
import Std.Data.TreeMap

namespace Flowchart

/-- a flow with its indexes -/
structure Graph where
  nodes : List Node
  /-- the node with an id -/
  index : Std.TreeMap String Node
  /-- the edges from a node, in the order of the document -/
  outgoing : Std.TreeMap String (List Edge)

namespace Graph

/-- an index with one more node -/
def addNode (index : Std.TreeMap String Node) (n : Node) : Except GraphError (Std.TreeMap String Node) :=
  if index.contains n.id then .error (.duplicateNode n.id) else .ok (index.insert n.id n)

/-- an index with one more edge -/
def addEdge (index : Std.TreeMap String Node) (outgoing : Std.TreeMap String (List Edge)) (e : Edge) :
    Except GraphError (Std.TreeMap String (List Edge)) :=
  if ¬index.contains e.source then .error (.danglingEdge e.source e.target e.source)
  else if ¬index.contains e.target then .error (.danglingEdge e.source e.target e.target)
  else .ok (outgoing.insert e.source (outgoing.getD e.source [] ++ [e]))

/-- The graph of a document. A repeated id is an error, else an edge from or to no node. -/
def ofDocument (d : Document) : Except GraphError Graph := do
  let index ← d.nodes.foldlM addNode ∅
  let outgoing ← d.edges.foldlM (addEdge index) ∅
  return ⟨d.nodes, index, outgoing⟩

/-- the node with an id -/
def node? (g : Graph) (id : String) : Option Node := g.index[id]?

/-- the node with an id, which another node requires -/
def node (g : Graph) (id requiredBy : String) : Except GraphError Node :=
  match g.node? id with
  | some n => .ok n
  | none => .error (.missingNode id requiredBy)

/-- the one start node -/
def start (g : Graph) : Except GraphError Node :=
  match g.nodes.filter fun n => n.kind = .start with
  | [n] => .ok n
  | starts => .error (.missingStart starts.length)

/-- the edges from a node -/
def edgesFrom (g : Graph) (id : String) : List Edge := g.outgoing.getD id []

/-- the edges from a node that have no condition -/
def plainEdgesFrom (g : Graph) (id : String) : List Edge := (g.edgesFrom id).filter fun e => e.condition.isNone

/-- the edge by which to go on from a node: the first without a condition -/
def next? (g : Graph) (id : String) : Option Edge := (g.plainEdgesFrom id).head?

/-- what is logged when going on from a node -/
def nextEvents (g : Graph) (id : String) : List Event :=
  match g.plainEdgesFrom id with
  | taken :: e :: ignored => [.severalEdges id taken.target (e :: ignored).length]
  | _ => []

/-- the edge to take from a node on an outcome: the first with that condition -/
def branch? (g : Graph) (id : String) (outcome : Bool) : Option Edge :=
  (g.edgesFrom id).find? fun e => e.condition = some outcome

/-! ## How many nodes are not on a path -/

/-- the number of nodes that are not on a path -/
def offPath (g : Graph) (path : List String) : Nat := (g.index.keys.filter (· ∉ path)).length

theorem length_filter_notMem_cons_lt {ids path : List String} {id : String} (hid : id ∈ ids) (hp : id ∉ path) :
    (ids.filter (· ∉ id :: path)).length < (ids.filter (· ∉ path)).length := by
  have hsplit : ids.filter (· ∉ id :: path) = (ids.filter (· ∉ path)).filter (· ≠ id) := by
    rw [List.filter_filter]
    congr 1
    funext i
    simp [not_or]
  rw [hsplit]
  have hin : id ∈ ids.filter (· ∉ path) := List.mem_filter.2 ⟨hid, by simpa using hp⟩
  exact List.length_filter_lt_length_iff_exists.2 ⟨id, hin, by simp⟩

/-- going to a node off the path leaves fewer -/
theorem offPath_cons_lt {g : Graph} {path : List String} {id : String} {n : Node} (hn : g.node? id = some n)
    (hp : id ∉ path) : g.offPath (id :: path) < g.offPath path := by
  have hmem : id ∈ g.index.keys := by
    rw [Std.TreeMap.mem_keys, Std.TreeMap.mem_iff_isSome_getElem?]
    exact Option.isSome_iff_exists.2 ⟨n, hn⟩
  exact length_filter_notMem_cons_lt hmem hp

end Graph

end Flowchart
