/-
From a graph to a tree.

The graph is walked depth first from its start node. Each node adds its statement to the block that it is reached for.
A conditional opens a block per outcome and walks its two branches; nothing follows it. A loop opens a block for its
children, walks them one by one, and goes on. The first end node that is reached returns from the function, at the
root; later ones add nothing.

`lower` is what one node adds, given a way to enter further nodes, and `visit` ties the knot. It carries the path that
leads to a node. A node that is already on the path is a cycle, so every visit has fewer nodes left to enter than the
one it comes from (`Graph.offPath_cons_lt`), and the walk ends.
-/
import Flowchart.Draft
import Flowchart.Graph
import Flowchart.Lowering

namespace Flowchart

/-- what is done after a node: go on by its next edge, or stop -/
inductive Continuation where
  | follow
  | stop
deriving DecidableEq, Repr

/-- how far the walk has come -/
structure Progress where
  draft : Draft := .empty
  returned : Bool := false
deriving Repr, Inhabited

namespace Progress

/-- one more entry at the end of a block -/
def emit (s : Progress) (block : Nat) (e : Entry) : Progress := { s with draft := s.draft.emit block e }

/-- one more block -/
def openBlock (s : Progress) : Progress := { s with draft := s.draft.openBlock }

/-- the function returns -/
def emitReturn (s : Progress) (argument : Expression) : Progress :=
  { s.emit Draft.root (.statement (.ret argument)) with returned := true }

end Progress

/-- how a node is entered: its id, the block that it is reached for, and what is done after it -/
abbrev Enter := String → Nat → Continuation → Progress → Logged Error Progress

namespace Node

/-- go on after a node -/
def proceed (n : Node) (g : Graph) (block : Nat) (k : Continuation) (enter : Enter) (s : Progress) :
    Logged Error Progress :=
  match k with
  | .stop => return s
  | .follow => do
    .log (g.nextEvents n.id)
    match g.next? n.id with
    | some edge => enter edge.target block .follow s
    | none => return s

/-- walk the branch of a conditional for one outcome -/
def lowerBranch (n : Node) (g : Graph) (enter : Enter) (outcome : Bool) (block : Nat) (s : Progress) :
    Logged Error Progress :=
  match g.branch? n.id outcome with
  | some edge => enter edge.target block .follow s
  | none => do
    .log [.noBranch n.id outcome]
    return s

/-- the block that a conditional is put into -/
def conditionalBlock (o : Options) (block : Nat) : Nat :=
  match o.placement with
  | .nested => block
  | .hoisted => Draft.root

/-- a conditional and its two branches -/
def lowerConditional (n : Node) (g : Graph) (o : Options) (block : Nat) (enter : Enter) (s : Progress) :
    Logged Error Progress := do
  let test ← n.expression "expression"
  let consequent := s.draft.size
  let alternate := s.draft.size + 1
  let s := s.openBlock.openBlock.emit (conditionalBlock o block) (.conditional test consequent alternate)
  let s ← n.lowerBranch g enter true consequent s
  n.lowerBranch g enter false alternate s

/-- a loop and its children -/
def lowerLoop (n : Node) (block : Nat) (enter : Enter) (s : Progress) : Logged Error Progress := do
  let (iterable, item) ← n.loopHead
  let body := s.draft.size
  let s := s.openBlock.emit block (.forEach item iterable body)
  n.children.foldlM (fun s child => enter child body .stop s) s

/-- the end of the flow: the first that is reached returns -/
def lowerFinish (n : Node) (s : Progress) : Logged Error Progress :=
  if s.returned then do
    .log [.alreadyReturned n.id]
    return s
  else do
    let argument ← n.expression "output"
    return s.emitReturn argument

/-- what a node adds for a block -/
def lower (n : Node) (g : Graph) (o : Options) (block : Nat) (k : Continuation) (enter : Enter) (s : Progress) :
    Logged Error Progress := do
  .log [.lowering n.id n.kind]
  match n.kind with
  | .start => n.proceed g block k enter s
  | .setVariable =>
    let statement ← n.assignment
    n.proceed g block k enter (s.emit block (.statement statement))
  | .conditional => n.lowerConditional g o block enter s
  | .httpCall =>
    let statement ← n.httpCall o.httpClient
    n.proceed g block k enter (s.emit block (.statement statement))
  | .loop =>
    let s ← n.lowerLoop block enter s
    n.proceed g block k enter s
  | .finish => n.lowerFinish s

end Node

/-- Enter the node `id` from the node `via`. `path` lists the nodes that are being walked, the last first. -/
def visit (g : Graph) (o : Options) (path : List String) (id via : String) (block : Nat) (k : Continuation)
    (s : Progress) : Logged Error Progress :=
  match hn : g.node? id with
  | none => .fail (.graph (.missingNode id via))
  | some n =>
    if hp : id ∈ path then .fail (.graph (.cyclic id via))
    else
      have := Graph.offPath_cons_lt hn hp
      n.lower g o block k (fun child block k s => visit g o (id :: path) child id block k s) s
termination_by g.offPath path

/-- the tree of a graph -/
def Graph.build (g : Graph) (o : Options) : Logged Error Program := do
  let start ← (g.start.mapError Error.graph : Except Error Node)
  .log [.building start.id]
  let s ← visit g o [] start.id start.id Draft.root .follow {}
  return s.draft.program

/-- the tree of a document -/
def Document.build (d : Document) (o : Options) : Logged Error Program := do
  let g ← ((Graph.ofDocument d).mapError Error.graph : Except Error Graph)
  .log [.indexed g.nodes.length g.outgoing.size]
  g.build o

end Flowchart
