/-
A tree under construction.

A draft is a table of numbered blocks. The entries of a block are statements that are complete, and conditionals and
loops that name the blocks inside them by number. So a block can be filled at any time, also after blocks that were
opened later: that is how a statement gets to the root while an inner block is being built. Block 0 is the root.

An entry only names blocks that were opened after the block it stands in. `program` puts the blocks together from the
last to the first.
-/
import Flowchart.Tree.Basic

namespace Flowchart

/-- an entry of a block -/
inductive Entry where
  | statement (value : Statement)
  | conditional (test : Expression) (consequent alternate : Nat)
  | forEach (item : String) (iterable : Expression) (body : Nat)
deriving Repr, Inhabited

/-- a tree under construction -/
structure Draft where
  blocks : List (List Entry)
deriving Repr, Inhabited

/-- the statement of an entry, from the statements of the blocks that it names -/
def Entry.fill (block : Nat → List Statement) : Entry → Statement
  | .statement value => value
  | .conditional test consequent alternate => .conditional test (block consequent) (block alternate)
  | .forEach item iterable body => .forEach item iterable (block body)

namespace Draft

/-- the root block -/
def root : Nat := 0

/-- a draft with an empty root -/
def empty : Draft := ⟨[[]]⟩

/-- the number of blocks, and so the number of the next one -/
def size (d : Draft) : Nat := d.blocks.length

/-- the draft with one more block, which is empty -/
def openBlock (d : Draft) : Draft := ⟨d.blocks ++ [[]]⟩

/-- the draft with one more entry at the end of a block -/
def emit (d : Draft) (block : Nat) (e : Entry) : Draft := ⟨d.blocks.modify block (· ++ [e])⟩

/-- The statements of blocks, of which the first has number `first`. An entry finds the blocks that it names among those
after its own. -/
def statements (first : Nat) : List (List Entry) → List (List Statement)
  | [] => []
  | entries :: rest =>
    let later := statements (first + 1) rest
    let block (i : Nat) : List Statement := if first < i then later.getD (i - (first + 1)) [] else []
    entries.map (Entry.fill block) :: later

/-- the finished tree -/
def program (d : Draft) : Program := ⟨(statements root d.blocks).headD []⟩

end Draft

end Flowchart
