/-
From a flow to the source text of a function.
-/
import Flowchart.Build
import Flowchart.Document.Decode
import Flowchart.Tree.Decode
import Flowchart.Tree.Encode
import Flowchart.Tree.View

namespace Flowchart

/-- a compiled flow: its tree and its source text -/
structure Compilation where
  program : Program
  source : String
deriving Repr, Inhabited

/-- compile a document -/
def Document.compile (d : Document) (o : Options) : Logged Error Compilation := do
  let program ← d.build o
  let source := program.render o.render
  .log [.finished program.body.length source.utf8ByteSize]
  return ⟨program, source⟩

/-- the document that a text holds -/
def Document.load (s : String) : Except Error Document := (Document.parse s).mapError .document

/-- The tree that a JSON text holds. A text that is not JSON comes before a tag that is not known, and that before any
other fault. -/
def Program.load (s : String) : Except Error Program :=
  match Json.parse? s with
  | none => .error (.tree .malformed)
  | some v =>
    match v.unknownTag? with
    | some tag => .error (.unknownKind tag)
    | none =>
      match Program.decode v with
      | .ok p => .ok p
      | .error e => .error (.tree e)

/-- the source text of the tree that a JSON text holds -/
def renderTree (o : RenderOptions) (s : String) : Except Error String := (Program.load s).map (·.render o)

end Flowchart
