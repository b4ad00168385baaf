/-
Flow documents from JSON.

Documents, nodes and edges are objects, or arrays of their fields in order; fields that have a default may be left out,
in an array from the end. A document is read in the order of its text and the first fault is reported: a field that
stands twice at its second key, a field that is missing at the end of its object. Fields that are not known need only be
well-formed.
-/
import Flowchart.Document.Basic
import Flowchart.Json.Mismatch

namespace Flowchart

namespace Fragment

/-- a text -/
def text : Fragment → Except ReadError String
  | .str (some s) => .ok s
  | v => .error (.wrongFragment v "a string")

/-- a list, item by item -/
def list {α : Type} (item : Fragment → Except ReadError α) : Fragment → Except ReadError (List α)
  | .arr items closed => do
    let values ← items.mapM item
    if closed then return values else throw .malformed
  | v => .error (.wrongFragment v "a sequence")

/-- a value that nothing is read from -/
def skip (v : Fragment) : Except ReadError Unit := if v.isComplete then .ok () else .error .malformed

/-- the members of an object, one by one in the order of the text -/
def members {σ : Type} (read : σ → String → Fragment → Except ReadError σ) (state : σ)
    (members : List (Option String × Fragment)) (closed : Bool) : Except ReadError σ := do
  let state ← members.foldlM (fun state m =>
    match m.1 with
    | some key => read state key m.2
    | none => throw .malformed) state
  if closed then return state else throw .malformed

/-- a key that stands in an object a second time -/
def once {α : Type} (name : String) (seen : Option α) : Except ReadError Unit :=
  if seen.isSome then .error (.mismatch (.repeatedField name)) else .ok ()

/-- The next field of an array: none at its end, and a fault where the text breaks off. -/
def next (closed : Bool) : List Fragment → Except ReadError (Option Fragment × List Fragment)
  | v :: rest => .ok (some v, rest)
  | [] => if closed then .ok (none, []) else .error .malformed

/-- a field that an array of `count` fields must have, after the `given` before it -/
def element (title : String) (given : Nat) : Option Fragment → Except ReadError Fragment
  | some v => .ok v
  | none => .error (.mismatch (.wrongLength given title))

/-- an array that has no more fields -/
def done (closed : Bool) (rest : List Fragment) : Except ReadError Unit :=
  if closed ∧ rest.isEmpty then .ok () else .error .malformed

end Fragment

open Fragment
open ReadError (required)

/-! ## Nodes -/

/-- the kind with a name -/
def NodeKind.ofName (s : String) : Except ReadError NodeKind :=
  match ofName? s with
  | some k => .ok k
  | none => .error (.mismatch (.unknownVariant s names))

/-- A kind: its name, or an object with the name as its one key and null as its value. -/
def NodeKind.decode : Fragment → Except ReadError NodeKind
  | .str (some s) => ofName s
  | .obj ((some name, value) :: rest) closed => do
    let kind ← ofName name
    match value with
    | .null => if closed ∧ rest.isEmpty then return kind else throw .malformed
    | v => throw (.wrongFragment v "unit")
  | _ => .error .malformed

/-- the properties of a node; their values may nest `depth` deep -/
def Node.decodeProperties (depth : Nat) : Fragment → Except ReadError (List (String × Json))
  | .obj members closed =>
    match toJsonMembers? depth members, closed with
    | some members, true => .ok (Json.sortMembers members)
    | _, _ => .error .malformed
  | v => .error (.wrongFragment v "a map")

namespace Node

/-- the fields of a node that have been read -/
structure Parts where
  id : Option String := none
  kind : Option NodeKind := none
  properties : Option (List (String × Json)) := none
  children : Option (List String) := none

/-- the parts with one more field -/
def Parts.read (depth : Nat) (p : Parts) (key : String) (v : Fragment) : Except ReadError Parts := do
  match key with
  | "id" =>
    once "id" p.id
    return { p with id := some (← v.text) }
  | "type" =>
    once "type" p.kind
    return { p with kind := some (← NodeKind.decode v) }
  | "properties" =>
    once "properties" p.properties
    return { p with properties := some (← decodeProperties depth v) }
  | "children" =>
    once "children" p.children
    return { p with children := some (← v.list text) }
  | _ =>
    v.skip
    return p

/-- A node that may nest `depth` deep. Its own object and that of its properties take two levels. -/
def decode (depth : Nat) : Fragment → Except ReadError Node
  | .obj members closed => do
    let p ← Fragment.members (Parts.read (depth - 2)) {} members closed
    let id ← required "id" p.id
    let kind ← required "type" p.kind
    return ⟨id, kind, p.properties.getD [], p.children.getD []⟩
  | .arr items closed => do
    let title := "struct FlowNode with 4 elements"
    let (v, rest) ← next closed items
    let id ← (← element title 0 v).text
    let (v, rest) ← next closed rest
    let kind ← NodeKind.decode (← element title 1 v)
    let (v, rest) ← next closed rest
    let properties ← v.mapM (decodeProperties (depth - 2))
    let (v, rest) ← next closed rest
    let children ← v.mapM (list text)
    done closed rest
    return ⟨id, kind, properties.getD [], children.getD []⟩
  | v => .error (.wrongFragment v "struct FlowNode")

end Node

/-! ## Edges -/

namespace Edge

/-- a condition; null is none -/
def decodeCondition : Fragment → Except ReadError (Option Bool)
  | .null => .ok none
  | .bool b => .ok (some b)
  | v => .error (.wrongFragment v "a boolean")

/-- the fields of an edge that have been read -/
structure Parts where
  source : Option String := none
  target : Option String := none
  condition : Option (Option Bool) := none

/-- the parts with one more field; a condition has two names -/
def Parts.read (p : Parts) (key : String) (v : Fragment) : Except ReadError Parts := do
  if key = "source" then
    once "source" p.source
    return { p with source := some (← v.text) }
  else if key = "target" then
    once "target" p.target
    return { p with target := some (← v.text) }
  else if key = "conditionValue" ∨ key = "condition" then
    once "conditionValue" p.condition
    return { p with condition := some (← decodeCondition v) }
  else
    v.skip
    return p

/-- an edge -/
def decode : Fragment → Except ReadError Edge
  | .obj members closed => do
    let p ← Fragment.members Parts.read {} members closed
    let source ← required "source" p.source
    let target ← required "target" p.target
    return ⟨source, target, p.condition.getD none⟩
  | .arr items closed => do
    let title := "struct FlowEdge with 3 elements"
    let (v, rest) ← next closed items
    let source ← (← element title 0 v).text
    let (v, rest) ← next closed rest
    let target ← (← element title 1 v).text
    let (v, rest) ← next closed rest
    let condition ← v.mapM decodeCondition
    done closed rest
    return ⟨source, target, condition.getD none⟩
  | v => .error (.wrongFragment v "struct FlowEdge")

end Edge

/-! ## Documents -/

namespace Document

/-- the fields of a document that have been read -/
structure Parts where
  nodes : Option (List Node) := none
  edges : Option (List Edge) := none

/-- a list of nodes; the document and the list take two levels of nesting -/
def decodeNodes : Fragment → Except ReadError (List Node) := list (Node.decode (depthLimit - 2))

/-- the parts with one more field -/
def Parts.read (p : Parts) (key : String) (v : Fragment) : Except ReadError Parts := do
  if key = "nodes" then
    once "nodes" p.nodes
    return { p with nodes := some (← decodeNodes v) }
  else if key = "edges" then
    once "edges" p.edges
    return { p with edges := some (← v.list Edge.decode) }
  else
    v.skip
    return p

/-- a document -/
def decode : Fragment → Except ReadError Document
  | .obj members closed => do
    let p ← Fragment.members Parts.read {} members closed
    return ⟨← required "nodes" p.nodes, p.edges.getD []⟩
  | .arr items closed => do
    let (v, rest) ← next closed items
    let nodes ← decodeNodes (← element "struct FlowDocument with 2 elements" 0 v)
    let (v, rest) ← next closed rest
    let edges ← v.mapM (list Edge.decode)
    done closed rest
    return ⟨nodes, edges.getD []⟩
  | v => .error (.wrongFragment v "struct FlowDocument")

end Document

/-! ## Texts -/

/-- what a decoder reads from a text that holds one value and nothing else -/
def Fragment.parse {α : Type} (decode : Fragment → Except ReadError α) (s : String) : Except ReadError α := do
  let (v, whole) := ofText s.toList
  let a ← decode v
  if whole then return a else throw .malformed

/-- the document that a text holds -/
def Document.parse (s : String) : Except ReadError Document := Fragment.parse decode s

/-- the node that a text holds -/
def Node.parse (s : String) : Except ReadError Node := Fragment.parse (decode depthLimit) s

/-- the edge that a text holds -/
def Edge.parse (s : String) : Except ReadError Edge := Fragment.parse decode s

end Flowchart
