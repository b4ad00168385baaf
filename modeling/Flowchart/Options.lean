/-
How a flow is compiled.
-/
import Flowchart.Tree.Source

namespace Flowchart

/-- where conditionals are put: where they are reached, or at the root of the function -/
inductive Placement where
  | nested
  | hoisted
deriving DecidableEq, Repr

/-- the options of a compilation -/
structure Options where
  functionName : String := "flow"
  httpClient : String := "axios"
  indentWidth : Nat := 2
  placement : Placement := .nested
deriving DecidableEq, Repr

/-- the options that concern the source text -/
def Options.render (o : Options) : RenderOptions := ⟨o.functionName, o.indentWidth⟩

end Flowchart
