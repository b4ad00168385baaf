/-
The table of blocks is a tree.

An entry names the blocks inside it by number, and nothing in the table itself says that a block is named at all, or
only once. This holds because a block is opened only for an entry that is then put into an older block: the walk opens
as many blocks as the entry names, and the entry names exactly those.

- `IsTree`: every block but the root is named once in the whole table, by an entry of an earlier block, and no entry
  names a block that does not exist.
- `IsTree.emit`: opening blocks and putting an entry with them into the table keeps this.
- `IsTree.range_perm`: the numbers of the blocks are the root and what is named.
-/
import Flowchart.Proofs.Blocks
import Mathlib

namespace Flowchart

/-- a complete statement has no statements inside it -/
def Entry.Flat : Entry → Prop
  | .statement value => value.isLeaf
  | _ => True

namespace Draft

/-! ## All entries of a table -/

/-- all entries, block by block -/
def entries (d : Draft) : List Entry := d.blocks.flatten

/-- the blocks that entries name, each as often as it is named -/
def references (d : Draft) : List Nat := d.entries.flatMap Entry.names

/-- the blocks that the entries of one block name -/
def named (d : Draft) (i : Nat) : List Nat := (d.block i).flatMap Entry.names

theorem blocks_eq (d : Draft) : d.blocks = (List.range d.size).map d.block := by
  refine List.ext_getElem (by simp [size]) fun i hi _ => ?_
  simp [block, hi]

theorem entries_eq (d : Draft) : d.entries = (List.range d.size).flatMap d.block := by
  rw [entries, blocks_eq, List.flatMap_def]

theorem references_eq (d : Draft) : d.references = (List.range d.size).flatMap d.named := by
  rw [references, entries_eq, List.flatMap_assoc]
  rfl

theorem mem_entries {d : Draft} {e : Entry} : e ∈ d.entries ↔ ∃ i, e ∈ d.block i := by
  rw [entries_eq, List.mem_flatMap]
  constructor
  · rintro ⟨i, -, he⟩
    exact ⟨i, he⟩
  · rintro ⟨i, he⟩
    refine ⟨i, List.mem_range.2 (Nat.lt_of_not_le fun hle => ?_), he⟩
    rw [block_of_size_le hle] at he
    cases he

theorem length_entries (d : Draft) : d.entries.length = ((List.range d.size).map fun i => (d.block i).length).sum := by
  rw [entries_eq, List.length_flatMap]

@[simp] theorem entries_openBlock (d : Draft) : d.openBlock.entries = d.entries := by
  simp [entries, openBlock]

theorem flatten_modify_perm {blocks : List (List Entry)} {b : Nat} (hb : b < blocks.length) (e : Entry) :
    (blocks.modify b (· ++ [e])).flatten.Perm (e :: blocks.flatten) := by
  induction blocks generalizing b with
  | nil => exact absurd hb (Nat.not_lt_zero b)
  | cons first rest ih =>
    cases b with
    | zero =>
      rw [List.modify_zero_cons, List.flatten_cons, List.flatten_cons, List.append_assoc]
      exact List.perm_middle
    | succ b =>
      rw [List.modify_succ_cons, List.flatten_cons, List.flatten_cons]
      exact ((ih (Nat.lt_of_succ_lt_succ hb)).append_left first).trans List.perm_middle

/-- an entry that is put into a block is one more in the table -/
theorem entries_emit {d : Draft} {b : Nat} (hb : b < d.size) (e : Entry) :
    (d.emit b e).entries.Perm (e :: d.entries) := flatten_modify_perm hb e

theorem length_entries_emit {d : Draft} {b : Nat} (hb : b < d.size) (e : Entry) :
    (d.emit b e).entries.length = d.entries.length + 1 := (entries_emit hb e).length_eq

theorem references_emit {d : Draft} {b : Nat} (hb : b < d.size) (e : Entry) :
    (d.emit b e).references.Perm (e.names ++ d.references) := (entries_emit hb e).flatMap_right _

/-! ## Opening blocks for an entry -/

/-- the draft with `k` more blocks -/
def openBlocks (d : Draft) : Nat → Draft
  | 0 => d
  | k + 1 => (d.openBlocks k).openBlock

@[simp] theorem size_openBlocks (d : Draft) (k : Nat) : (d.openBlocks k).size = d.size + k := by
  induction k with
  | zero => rfl
  | succ k ih => rw [openBlocks, size_openBlock, ih, Nat.add_assoc]

@[simp] theorem block_openBlocks (d : Draft) (k i : Nat) : (d.openBlocks k).block i = d.block i := by
  induction k with
  | zero => rfl
  | succ k ih => rw [openBlocks, block_openBlock, ih]

@[simp] theorem entries_openBlocks (d : Draft) (k : Nat) : (d.openBlocks k).entries = d.entries := by
  induction k with
  | zero => rfl
  | succ k ih => rw [openBlocks, entries_openBlock, ih]

/-- every block but the root is named once in the whole table, and only by entries of earlier blocks -/
structure IsTree (d : Draft) : Prop where
  /-- each block but the root is named by one entry, and once there -/
  once : ∀ i, i ≠ root → i < d.size → d.references.count i = 1
  /-- an entry names only blocks that were opened after its own -/
  later : ∀ i, ∀ e ∈ d.block i, ∀ j ∈ e.names, i < j ∧ j < d.size

/-- every complete statement of the table has no statements inside it -/
def Flat (d : Draft) : Prop := ∀ e ∈ d.entries, e.Flat

theorem isTree_empty : empty.IsTree := by
  refine ⟨fun i hi hlt => ?_, fun i e he => ?_⟩
  · exact absurd (Nat.lt_one_iff.1 hlt) hi
  · cases i <;> simp [empty, block] at he

theorem flat_empty : empty.Flat := fun _ he => by simp [empty, entries] at he

namespace IsTree

variable {d : Draft}

theorem ordered (h : d.IsTree) : d.Ordered := fun i e he j hj => (h.later i e he j hj).1

theorem mem_references (h : d.IsTree) {j : Nat} (hj : j ∈ d.references) : root < j ∧ j < d.size := by
  obtain ⟨e, he, hj⟩ := List.mem_flatMap.1 hj
  obtain ⟨i, he⟩ := mem_entries.1 he
  obtain ⟨hlt, hsize⟩ := h.later i e he j hj
  exact ⟨Nat.zero_lt_of_lt hlt, hsize⟩

theorem count_references (h : d.IsTree) (i : Nat) :
    d.references.count i = if root < i ∧ i < d.size then 1 else 0 := by
  split
  · rename_i hi
    exact h.once i (Nat.ne_of_gt hi.1) hi.2
  · rename_i hi
    exact List.count_eq_zero.2 fun hmem => hi (h.mem_references hmem)

/-- **The numbers of the blocks are the root and what is named**, each once. -/
theorem range_perm (h : d.IsTree) (hpos : 0 < d.size) : (List.range d.size).Perm (root :: d.references) := by
  refine List.perm_iff_count.2 fun i => ?_
  rw [List.count_range, List.count_cons, h.count_references, root]
  rcases Nat.eq_zero_or_pos i with rfl | hi
  · simp [hpos]
  · simp [hi, Nat.ne_of_lt hi]

/-- **A step of the walk keeps the tree.** Blocks are opened, and an entry that names them is put into an older one. -/
theorem emit (h : d.IsTree) {b k : Nat} (hb : b < d.size) {e : Entry} (hnames : e.names = List.range' d.size k) :
    ((d.openBlocks k).emit b e).IsTree := by
  have hb' : b < (d.openBlocks k).size := by
    rw [size_openBlocks]
    omega
  have hsize : ((d.openBlocks k).emit b e).size = d.size + k := by rw [size_emit, size_openBlocks]
  refine ⟨fun i hi hlt => ?_, fun i e' he' j hj => ?_⟩
  · -- a new block is named by the entry only, and an old one by the entries that were there
    have hold : (d.openBlocks k).references = d.references := by rw [references, entries_openBlocks, references]
    have hpos : root < i := Nat.pos_of_ne_zero hi
    rw [hsize] at hlt
    rw [(references_emit hb' e).count_eq, List.count_append, hold, h.count_references, hnames,
      (List.nodup_range' 1).count]
    by_cases hnew : d.size ≤ i
    · simp [List.mem_range'_1, hnew, hlt]
    · simp [List.mem_range'_1, hnew, hpos, Nat.lt_of_not_le hnew]
  · rw [hsize]
    rw [block_emit hb', block_openBlocks] at he'
    rcases List.mem_append.1 he' with hold | hnew
    · obtain ⟨hij, hj'⟩ := h.later i e' hold j hj
      exact ⟨hij, by omega⟩
    · split at hnew
      · rename_i hib
        obtain rfl := List.mem_singleton.1 hnew
        rw [hnames, List.mem_range'_1] at hj
        omega
      · cases hnew

end IsTree

theorem Flat.emit {d : Draft} (h : d.Flat) {b k : Nat} (hb : b < d.size) {e : Entry} (he : e.Flat) :
    ((d.openBlocks k).emit b e).Flat := by
  have hb' : b < (d.openBlocks k).size := by
    rw [size_openBlocks]
    omega
  intro e' he'
  rw [(entries_emit hb' e).mem_iff, entries_openBlocks, List.mem_cons] at he'
  rcases he' with rfl | he'
  · exact he
  · exact h e' he'

end Draft

end Flowchart
