/-
Putting the tree together.

`Draft.program` fills all blocks from the last to the first. The tree can also be put together from its root: the entries
of a block are taken out of the table, and each block that an entry names is put together in turn (`Draft.assemble`). A
block that is named twice would be empty the second time, one that is never named would be lost, and nothing says how
deep the blocks are nested.

- `order`: the blocks of a block, each before those that its entries name. `order_root_perm`: from the root these are all
  blocks, each once.
- `IsTree.assembles`: in a tree, a block is put together by taking the blocks of its order, and the result is what
  `Draft.program` has there.
- `length_walkAll_value`: each entry of these blocks gives one statement.
- `Graph.build_assembles`: this is so for every table that the walk leaves.
-/
import Flowchart.Proofs.WalkFrame
import Mathlib

namespace Flowchart

open Statement

/-- a table while a tree is put together from it, and the blocks that were taken out so far -/
structure Taking where
  draft : Draft
  taken : List Nat := []

/-- the statement of an entry, given what is in the blocks that it names -/
def Entry.complete : Entry → List (List Statement) → Statement
  | .statement value, _ => value
  | .conditional test _ _, bodies => .conditional test (bodies.getD 0 []) (bodies.getD 1 [])
  | .forEach item iterable _, bodies => .forEach item iterable (bodies.getD 0 [])

theorem Entry.complete_names (e : Entry) (value : Nat → List Statement) :
    e.complete (e.names.map value) = e.fill value := by
  cases e <;> rfl

namespace Draft

/-- take the entries out of a block, which must exist -/
def take (i : Nat) : StateT Taking Option (List Entry) := fun t =>
  if i < t.draft.size then some (t.draft.block i, ⟨⟨t.draft.blocks.set i []⟩, t.taken ++ [i]⟩) else none

/-- Put a block together, with blocks nested at most as deep as the number says: take its entries, and complete them in
order, each after its blocks were put together one after the other. It gives none when the blocks are nested deeper, and
when a block is taken that does not exist. -/
def assemble : Nat → Nat → StateT Taking Option (List Statement)
  | 0, _ => fun _ => none
  | depth + 1, i => do
    let entries ← take i
    entries.mapM fun e => do
      let bodies ← e.names.mapM (assemble depth)
      return e.complete bodies

/-! ## The order of the blocks -/

/-- the block and those inside it, each before those that its entries name -/
def order (d : Draft) (i : Nat) : List Nat :=
  i :: (d.named i).flatMap fun j => if _h : i < j ∧ j < d.size then d.order j else []
termination_by d.size - i

/-- Induction from the last block to the first: a statement about a block may use the statement about all later ones. -/
theorem later_induction (d : Draft) {motive : Nat → Prop}
    (block : ∀ i, (∀ j, i < j ∧ j < d.size → motive j) → motive i) (i : Nat) : motive i :=
  block i fun j _hj => later_induction d block j
termination_by d.size - i

namespace IsTree

variable {d : Draft}

theorem mem_named (h : d.IsTree) {i j : Nat} (hj : j ∈ d.named i) : i < j ∧ j < d.size := by
  obtain ⟨e, he, hj⟩ := List.mem_flatMap.1 hj
  exact h.later i e he j hj

theorem order_eq (h : d.IsTree) (i : Nat) : d.order i = i :: (d.named i).flatMap d.order := by
  rw [order]
  congr 1
  refine List.flatMap_congr fun j hj => ?_
  rw [dif_pos (h.mem_named hj)]

/-- the order of a block is the block, and what the blocks of the order name -/
theorem order_perm (h : d.IsTree) (i : Nat) : (d.order i).Perm (i :: (d.order i).flatMap d.named) := by
  induction i using d.later_induction with
  | block i ih =>
    have hinner : ((d.named i).flatMap d.order).Perm
        (d.named i ++ ((d.named i).flatMap d.order).flatMap d.named) := by
      have hunfold : ((d.named i).flatMap d.order).Perm
          ((d.named i).flatMap fun j => [j] ++ (d.order j).flatMap d.named) := by
        exact List.Perm.flatMap_left _ fun j hj => ih j (h.mem_named hj)
      refine hunfold.trans ((List.flatMap_append_perm _ _ _).symm.trans ?_)
      rw [List.flatMap_assoc]
      simp
    rw [h.order_eq, List.flatMap_cons]
    exact hinner.cons i

end IsTree

/-- how often a number is named, when names are larger: only smaller numbers count -/
theorem count_flatMap_below {named : Nat → List Nat} (hnamed : ∀ i, ∀ j ∈ named i, i < j) (xs : List Nat) (j : Nat) :
    (xs.flatMap named).count j = ((xs.filter (· < j)).flatMap named).count j := by
  induction xs with
  | nil => rfl
  | cons i xs ih =>
    rw [List.flatMap_cons, List.count_append, ih, List.filter_cons]
    by_cases hi : i < j
    · rw [if_pos (decide_eq_true hi), List.flatMap_cons, List.count_append]
    · have hzero : (named i).count j = 0 := List.count_eq_zero.2 fun hj => hi (hnamed i j hj)
      rw [if_neg (by simpa using hi), hzero, Nat.zero_add]

/-- A list of numbers is determined by its first one and what its members name, when names are larger. -/
theorem perm_of_names {named : Nat → List Nat} (hnamed : ∀ i, ∀ j ∈ named i, i < j) {first : Nat} {xs ys : List Nat}
    (hx : xs.Perm (first :: xs.flatMap named)) (hy : ys.Perm (first :: ys.flatMap named)) : xs.Perm ys := by
  refine List.perm_iff_count.2 fun j => ?_
  -- how often a number occurs is known from the members below it
  induction j using Nat.strong_induction_on with
  | _ j ih =>
    have hbelow : (xs.filter (· < j)).Perm (ys.filter (· < j)) := by
      refine List.perm_iff_count.2 fun i => ?_
      by_cases hi : i < j
      · rw [List.count_filter (by simpa using hi), List.count_filter (by simpa using hi), ih i hi]
      · have hnone : ∀ zs : List Nat, (zs.filter (· < j)).count i = 0 :=
          fun zs => List.count_eq_zero.2 fun hmem => hi (by simpa using (List.mem_filter.1 hmem).2)
        rw [hnone, hnone]
    rw [hx.count_eq, hy.count_eq, List.count_cons, List.count_cons, count_flatMap_below hnamed xs,
      count_flatMap_below hnamed ys, (hbelow.flatMap_right named).count_eq]

namespace IsTree

variable {d : Draft}

/-- **From the root, every block is reached once.** -/
theorem order_root_perm (h : d.IsTree) (hpos : root < d.size) : (d.order root).Perm (List.range d.size) := by
  refine perm_of_names (fun i j hj => (h.mem_named hj).1) (h.order_perm root) ?_
  rw [← references_eq]
  exact h.range_perm hpos

end IsTree

/-! ## Taking the blocks -/

/-- the state after some blocks were taken out of a table -/
def takingAfter (d : Draft) (taken : List Nat) : Taking :=
  ⟨⟨(List.range d.size).map fun i => if i ∈ taken then [] else d.block i⟩, taken⟩

theorem takingAfter_nil (d : Draft) : d.takingAfter [] = ⟨d, []⟩ := by
  simp [takingAfter, ← blocks_eq]

/-- when all blocks were taken, the table has no entries left -/
theorem takingAfter_all {d : Draft} {taken : List Nat} (h : ∀ i < d.size, i ∈ taken) :
    d.takingAfter taken = ⟨⟨List.replicate d.size []⟩, taken⟩ := by
  have hempty : ((List.range d.size).map fun i => if i ∈ taken then [] else d.block i) = List.replicate d.size [] := by
    refine List.eq_replicate_iff.2 ⟨by simp, fun entries he => ?_⟩
    obtain ⟨i, hi, rfl⟩ := List.mem_map.1 he
    rw [if_pos (h i (List.mem_range.1 hi))]
  rw [takingAfter, hempty]

theorem take_takingAfter {d : Draft} {i : Nat} {taken : List Nat} (hi : i < d.size) (hfresh : i ∉ taken) :
    take i (d.takingAfter taken) = some (d.block i, d.takingAfter (taken ++ [i])) := by
  have hsize : (d.takingAfter taken).draft.size = d.size := by simp [takingAfter, size]
  have hblock : (d.takingAfter taken).draft.block i = d.block i := by
    simp [takingAfter, block, hi, hfresh]
  have hset : (d.takingAfter taken).draft.blocks.set i [] = (d.takingAfter (taken ++ [i])).draft.blocks := by
    refine List.ext_getElem (by simp [takingAfter]) fun j hj _ => ?_
    rw [List.getElem_set]
    split
    · rename_i hij
      simp [takingAfter, hij]
    · rename_i hij
      simp [takingAfter, Ne.symm hij]
  rw [take, hsize, if_pos hi, hblock, hset]
  rfl

theorem bind_of_some {α β : Type} {x : StateT Taking Option α} {f : α → StateT Taking Option β} {t t' : Taking} {a : α}
    (h : x t = some (a, t')) : (x >>= f) t = f a t' := by
  show (x t >>= _ : Option _) = _
  rw [h]
  rfl

/-- the computation takes these blocks in this order and gives this result, if none of them was taken before -/
def Takes {α : Type} (d : Draft) (x : StateT Taking Option α) (a : α) (blocks : List Nat) : Prop :=
  ∀ taken, (taken ++ blocks).Nodup → x (d.takingAfter taken) = some (a, d.takingAfter (taken ++ blocks))

variable {d : Draft}

/-- one computation after the other takes the blocks of both -/
theorem Takes.mapM {α β : Type} {f : α → StateT Taking Option β} {result : α → β} {blocks : α → List Nat} {xs : List α}
    (h : ∀ x ∈ xs, d.Takes (f x) (result x) (blocks x)) : d.Takes (xs.mapM f) (xs.map result) (xs.flatMap blocks) := by
  induction xs with
  | nil =>
    intro taken _
    rw [List.mapM_nil, List.flatMap_nil, List.append_nil]
    rfl
  | cons x xs ih =>
    intro taken hnodup
    obtain ⟨hx, hxs⟩ := List.forall_mem_cons.1 h
    rw [List.flatMap_cons, ← List.append_assoc] at hnodup ⊢
    rw [List.mapM_cons, bind_of_some (hx taken hnodup.of_append_left), bind_of_some (ih hxs _ hnodup)]
    rfl

theorem Takes.complete {depth : Nat} {e : Entry}
    (he : ∀ j ∈ e.names, d.Takes (assemble depth j) (d.value j) (d.order j)) :
    d.Takes (do return e.complete (← e.names.mapM (assemble depth))) (e.fill d.value) (e.names.flatMap d.order) := by
  intro taken hnodup
  rw [bind_of_some (Takes.mapM he taken hnodup), e.complete_names]
  rfl

/-- **A block is put together** by taking the blocks of its order. Blocks are nested no deeper than there are blocks from
this one on, since an entry names later blocks only. -/
theorem IsTree.assembles (h : d.IsTree) {depth i : Nat} (hi : i < d.size) (hdepth : d.size ≤ i + depth) :
    d.Takes (assemble depth i) (d.value i) (d.order i) := by
  induction depth generalizing i with
  | zero => omega
  | succ depth ih =>
    intro taken hnodup
    have horder : d.order i = [i] ++ (d.block i).flatMap fun e => e.names.flatMap d.order := by
      rw [h.order_eq, named, List.flatMap_assoc]
      rfl
    rw [horder, ← List.append_assoc] at hnodup ⊢
    have hfresh : i ∉ taken :=
      fun hmem => (List.nodup_append.1 hnodup.of_append_left).2.2 i hmem i List.mem_cons_self rfl
    have hvalue : d.value i = (d.block i).map (Entry.fill d.value) := solves_value h.ordered i (Nat.zero_le i) hi
    have hentry : ∀ e ∈ d.block i, ∀ j ∈ e.names, d.Takes (assemble depth j) (d.value j) (d.order j) := by
      intro e he j hj
      obtain ⟨hlater, hlt⟩ := h.later i e he j hj
      exact ih hlt (by omega)
    rw [assemble, bind_of_some (take_takingAfter hi hfresh), hvalue]
    exact Takes.mapM (fun e he => Takes.complete (hentry e he)) _ hnodup

/-! ## How many statements there are -/

/-- the statements of an entry are itself and those of its blocks -/
theorem length_walk_fill {e : Entry} (he : e.Flat) (value : Nat → List Statement) :
    (e.fill value).walk.length = 1 + (e.names.map fun j => (walkAll (value j)).length).sum := by
  cases e with
  | statement s =>
    rw [Entry.fill, walk_eq, inside_leaf he]
    rfl
  | conditional test consequent alternate => simp [Entry.fill, Entry.names, walk_eq, inside, Nat.add_comm]
  | forEach item iterable body => simp [Entry.fill, Entry.names, walk_eq, inside, Nat.add_comm]

theorem length_walkAll_map_fill {es : List Entry} (hes : ∀ e ∈ es, e.Flat) (value : Nat → List Statement) :
    (walkAll (es.map (Entry.fill value))).length =
      es.length + ((es.flatMap Entry.names).map fun j => (walkAll (value j)).length).sum := by
  induction es with
  | nil => simp
  | cons e es ih =>
    obtain ⟨he, hes⟩ := List.forall_mem_cons.1 hes
    rw [List.map_cons, walkAll, List.length_append, length_walk_fill he, ih hes, List.flatMap_cons, List.map_append,
      List.sum_append, List.length_cons]
    omega

/-- **Each entry gives one statement.** The statements of a block and those inside them are as many as the entries of
the blocks of its order. -/
theorem IsTree.length_walkAll_value (h : d.IsTree) (hflat : d.Flat) {i : Nat} (hi : i < d.size) :
    (walkAll (d.value i)).length = ((d.order i).map fun j => (d.block j).length).sum := by
  induction i using d.later_induction with
  | block i ih =>
    have hvalue : d.value i = (d.block i).map (Entry.fill d.value) := solves_value h.ordered i (Nat.zero_le i) hi
    have hinner : ((d.named i).map fun j => (walkAll (d.value j)).length) =
        (d.named i).map fun j => ((d.order j).map fun j' => (d.block j').length).sum :=
      List.map_congr_left fun j hj => ih j (h.mem_named hj) (h.mem_named hj).2
    rw [hvalue, length_walkAll_map_fill fun e he => hflat e (mem_entries.2 ⟨i, he⟩), ← named, hinner, h.order_eq,
      List.map_cons, List.sum_cons, List.map_flatMap, List.flatMap_def, List.sum_flatten, List.map_map]
    rfl

/-- all statements of the finished tree -/
theorem IsTree.length_walk_program (h : d.IsTree) (hflat : d.Flat) (hpos : root < d.size) :
    d.program.walk.length = d.entries.length := by
  rw [Program.walk, program_eq, h.length_walkAll_value hflat hpos, length_entries]
  exact ((h.order_root_perm hpos).map _).sum_nat

end Draft

/-! ## The table that the walk leaves -/

/-- a walk from nothing that ends without an error, and what it kept -/
theorem exists_walk_of_visit {d : Document} {g : Graph} (hg : g.Indexes d) {o : Options} {id via : String} {s : Progress}
    (h : (visit g o [] id via Draft.root .follow {}).outcome = .ok s) :
    ∃ w : Walker, (∀ depth, d.ids.length < depth →
        Walk.visit g o depth ⟨id, via, Draft.root, .follow⟩ {} = some (.ok (), w)) ∧
      w.toProgress = s ∧ Keeps o Draft.root {} w := by
  have hactive : ({} : Walker).active = ([] : List String).toFinset := rfl
  obtain ⟨r, w, hrun, hkeeps, hout⟩ :=
    Walk.visit_settles (c := ⟨id, via, Draft.root, .follow⟩) hg o hactive Nat.zero_lt_one
  rw [h] at hout
  obtain ⟨⟨⟩, rfl, hs⟩ := map_eq_ok.1 hout
  refine ⟨w, fun depth hdepth => hrun depth ?_, hs.symm, hkeeps⟩
  exact Nat.lt_of_le_of_lt (List.length_filter_le _ _) hdepth

/-- **The table is a tree, and every block of it is taken once.** When the walk from the start node ends well, each block
but the root is named once in the whole table, by an entry of an earlier block. So putting the tree together from the
root ends and never asks for a block that is missing: all blocks are taken, each once, and are empty then. The result is
the program, which has one statement for each entry that was written. -/
theorem Graph.build_assembles {d : Document} {g : Graph} (hg : Graph.ofDocument d = .ok g) {o : Options} {p : Program}
    (h : (g.build o).outcome = .ok p) :
    ∃ (n : Node) (s : Walker) (taken : List Nat), g.start = .ok n ∧
      (∀ depth, g.nodes.length < depth →
        Walk.visit g o depth ⟨n.id, n.id, Draft.root, .follow⟩ {} = some (.ok (), s)) ∧
      s.draft.IsTree ∧
      (∀ depth, s.draft.size ≤ depth →
        Draft.assemble depth Draft.root ⟨s.draft, []⟩ = some (p.body, ⟨⟨List.replicate s.draft.size []⟩, taken⟩)) ∧
      taken.Perm (List.range s.draft.size) ∧ p.walk.length = s.emitted ∧ s.emitted = s.draft.entries.length := by
  simp only [Graph.build, Logged.outcome_bind, Logged.outcome_lift, Logged.outcome_log, ok_bind, bind_eq_ok] at h
  obtain ⟨n, hn, s, hs, hp⟩ := h
  cases hp
  have hindex := Graph.indexes_ofDocument hg
  obtain ⟨w, hrun, rfl, hkeeps⟩ := exists_walk_of_visit hindex hs
  have hlength : g.nodes.length = d.ids.length := by rw [hindex.nodes, Document.ids, List.length_map]
  have htree := hkeeps.tree Draft.isTree_empty
  have hroot : Draft.root < w.draft.size := Nat.lt_of_lt_of_le Nat.zero_lt_one hkeeps.size_le
  have horder := htree.order_root_perm hroot
  have hemitted : w.emitted = w.draft.entries.length := by
    have hcount := hkeeps.emitted
    have hzero : ({} : Walker).draft.entries.length = 0 := rfl
    have hzero' : ({} : Walker).emitted = 0 := rfl
    omega
  refine ⟨n, w, w.draft.order Draft.root, mapError_eq_ok.1 hn, fun depth hdepth => hrun depth (hlength ▸ hdepth), htree,
    fun depth hdepth => ?_, horder, ?_, hemitted⟩
  · have hassembles := htree.assembles hroot (hdepth.trans (Nat.le_add_left _ _)) []
      (by simpa using horder.nodup_iff.2 List.nodup_range)
    rw [Draft.takingAfter_nil, List.nil_append, ← Draft.program_eq] at hassembles
    rw [hassembles, Draft.takingAfter_all fun i hi => horder.mem_iff.2 (List.mem_range.2 hi)]
  · rw [hemitted]
    exact htree.length_walk_program (hkeeps.flat Draft.flat_empty) hroot

theorem build_assembles_earlyEnd :
    ∃ (g : Graph) (n : Node) (s : Walker) (taken : List Nat), Graph.ofDocument earlyEnd = .ok g ∧
      (g.build {}).outcome = .ok earlyEndTree ∧ g.start = .ok n ∧
      (∀ depth, g.nodes.length < depth →
        Walk.visit g {} depth ⟨n.id, n.id, Draft.root, .follow⟩ {} = some (.ok (), s)) ∧
      s.draft.IsTree ∧
      (∀ depth, s.draft.size ≤ depth → Draft.assemble depth Draft.root ⟨s.draft, []⟩ =
        some (earlyEndTree.body, ⟨⟨List.replicate s.draft.size []⟩, taken⟩)) ∧
      taken.Perm (List.range s.draft.size) ∧ s.emitted = 4 := by
  have hbuild := build_earlyEnd
  simp only [Document.build, Logged.outcome_bind, Logged.outcome_lift, Logged.outcome_log, ok_bind, bind_eq_ok] at hbuild
  obtain ⟨g, hg, hbuild⟩ := hbuild
  have hg := mapError_eq_ok.1 hg
  obtain ⟨n, s, taken, hn, hrun, htree, hassemble, htaken, hlength, -⟩ := Graph.build_assembles hg hbuild
  exact ⟨g, n, s, taken, hg, hbuild, hn, hrun, htree, hassemble, htaken, hlength.symm⟩

end Flowchart
