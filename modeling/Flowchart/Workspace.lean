/-
A workspace: a flow that is edited, compiled and rendered step by step.

The workspace holds a document, the options, and the tree of the last compilation that succeeded. `step` answers one
request. A request that fails changes nothing.
-/
import Flowchart.Compile
import Flowchart.Document.Encode

namespace Flowchart

/-- a flow that is being worked on -/
structure Workspace where
  document : Document := {}
  options : Options := {}
  last : Option Program := none

/-- what can be asked of a workspace -/
inductive Request where
  /-- replace the document by the one that a text holds -/
  | load (text : String)
  | addNode (text : String)
  | addEdge (text : String)
  /-- drop the last node -/
  | dropNode
  /-- drop the last edge -/
  | dropEdge
  | setFunctionName (value : String)
  | setHttpClient (value : String)
  | setIndentWidth (value : Nat)
  | setPlacement (value : Placement)
  | resetOptions
  | compile
  /-- build the tree and forget it -/
  | build
  /-- render the last tree -/
  | render
  /-- render the last tree from its JSON text -/
  | renderTree
  | document

/-- what a workspace answers -/
inductive Reply where
  | counts (nodes edges : Nat)
  | options (value : Options)
  | compilation (value : Compilation)
  | program (value : Program)
  | source (value : String)
  | document (value : Document)
  /-- there is no last tree -/
  | nothing
  | failed (e : Error)
  | unreadable (e : ReadError)

namespace Workspace

/-- a workspace with another document, and its counts -/
def withDocument (w : Workspace) (d : Document) : Workspace × Reply :=
  ({ w with document := d }, .counts d.nodes.length d.edges.length)

/-- a workspace with other options -/
def withOptions (w : Workspace) (o : Options) : Workspace × Reply := ({ w with options := o }, .options o)

/-- one request -/
def step (w : Workspace) : Request → Workspace × Reply
  | .load text =>
    match Document.load text with
    | .ok d => w.withDocument d
    | .error e => (w, .failed e)
  | .addNode text =>
    match Node.parse text with
    | .ok n => w.withDocument { w.document with nodes := w.document.nodes ++ [n] }
    | .error e => (w, .unreadable e)
  | .addEdge text =>
    match Edge.parse text with
    | .ok e => w.withDocument { w.document with edges := w.document.edges ++ [e] }
    | .error e => (w, .unreadable e)
  | .dropNode => w.withDocument { w.document with nodes := w.document.nodes.dropLast }
  | .dropEdge => w.withDocument { w.document with edges := w.document.edges.dropLast }
  | .setFunctionName value => w.withOptions { w.options with functionName := value }
  | .setHttpClient value => w.withOptions { w.options with httpClient := value }
  | .setIndentWidth value => w.withOptions { w.options with indentWidth := value }
  | .setPlacement value => w.withOptions { w.options with placement := value }
  | .resetOptions => w.withOptions {}
  | .compile =>
    match (w.document.compile w.options).outcome with
    | .ok c => ({ w with last := some c.program }, .compilation c)
    | .error e => (w, .failed e)
  | .build =>
    match (w.document.build w.options).outcome with
    | .ok p => (w, .program p)
    | .error e => (w, .failed e)
  | .render =>
    match w.last with
    | some p => (w, .source (p.render w.options.render))
    | none => (w, .nothing)
  | .renderTree =>
    match w.last with
    | some p =>
      match Flowchart.renderTree w.options.render p.toJson.toText with
      | .ok source => (w, .source source)
      | .error e => (w, .failed e)
    | none => (w, .nothing)
  | .document => (w, .document w.document)

/-- the answers to a list of requests -/
def run (w : Workspace) : List Request → List Reply
  | [] => []
  | r :: rest => (w.step r).2 :: run (w.step r).1 rest

end Workspace

end Flowchart
