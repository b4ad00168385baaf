/-
The table of blocks.

A draft is filled out of order, so what an entry stands for is only known when all blocks that it names are full. The
statements of blocks are therefore described by equations: `value` solves a draft from a block on when it gives each
later block the statements of its entries (`Solves`). The finished tree is a solution (`solves_value`), because an entry
only names blocks that were opened after its own (`Ordered`).

`Adds keep b ts d d'` says what a step of the walk did to the table: the statements `ts`, reached for block `b`, were
laid out in it. Each old block `i` got its `share` of them: block `b` those that stay, the root the others, and no
other block anything. The share is stated for every solution, so it holds whatever is added later.

- `Adds.trans`: steps one after the other.
- `adds_leaf`, `adds_conditional`, `adds_forEach`: the three ways in which the walk writes.
- `program_body`: the tree of a draft that was filled from nothing is the layout of what was added.
-/
import Flowchart.Proofs.Layout

namespace Flowchart

open Statement

/-! ## Entries and blocks -/

/-- the blocks that an entry names -/
def Entry.names : Entry → List Nat
  | .statement _ => []
  | .conditional _ consequent alternate => [consequent, alternate]
  | .forEach _ _ body => [body]

theorem Entry.fill_congr {value value' : Nat → List Statement} {e : Entry} (h : ∀ i ∈ e.names, value i = value' i) :
    e.fill value = e.fill value' := by
  cases e <;> simp_all [Entry.names, Entry.fill]

namespace Draft

/-- the entries of a block -/
def block (d : Draft) (i : Nat) : List Entry := d.blocks.getD i []

/-- an entry only names blocks that were opened after its own -/
def Ordered (d : Draft) : Prop := ∀ i, ∀ e ∈ d.block i, ∀ j ∈ e.names, i < j

/-- `value` gives each block from `first` on the statements of its entries -/
def Solves (d : Draft) (first : Nat) (value : Nat → List Statement) : Prop :=
  ∀ i, first ≤ i → i < d.size → value i = (d.block i).map (Entry.fill value)

theorem block_of_size_le {d : Draft} {i : Nat} (h : d.size ≤ i) : d.block i = [] := by
  have hnone : d.blocks[i]? = none := List.getElem?_eq_none h
  simp [block, hnone]

@[simp] theorem size_openBlock (d : Draft) : d.openBlock.size = d.size + 1 := by
  simp [openBlock, size]

@[simp] theorem block_openBlock (d : Draft) (i : Nat) : d.openBlock.block i = d.block i := by
  by_cases h : i < d.size
  · have hlt : i < d.blocks.length := h
    simp [block, openBlock, List.getElem?_append_left hlt]
  · have hle : d.blocks.length ≤ i := Nat.le_of_not_lt h
    rw [block_of_size_le (Nat.le_of_not_lt h)]
    simp only [block, openBlock, List.getD_eq_getElem?_getD, List.getElem?_append_right hle]
    cases i - d.blocks.length <;> simp

@[simp] theorem size_emit (d : Draft) (b : Nat) (e : Entry) : (d.emit b e).size = d.size := by
  simp [emit, size]

theorem block_emit {d : Draft} {b : Nat} (hb : b < d.size) (e : Entry) (i : Nat) :
    (d.emit b e).block i = d.block i ++ if i = b then [e] else [] := by
  have hlt : b < d.blocks.length := hb
  by_cases h : i = b
  · subst h
    simp [block, emit, hlt]
  · have h' : ¬b = i := fun heq => h heq.symm
    simp [block, emit, h, h']

theorem Ordered.openBlock {d : Draft} (h : d.Ordered) : d.openBlock.Ordered := by
  intro i e he
  rw [block_openBlock] at he
  exact h i e he

theorem Ordered.emit {d : Draft} (h : d.Ordered) {b : Nat} (hb : b < d.size) {e : Entry} (he : ∀ j ∈ e.names, b < j) :
    (d.emit b e).Ordered := by
  intro i e' he'
  rw [block_emit hb] at he'
  rcases List.mem_append.1 he' with he' | he'
  · exact h i e' he'
  · split at he'
    · rename_i hi
      obtain rfl := List.mem_singleton.1 he'
      rw [hi]
      exact he
    · cases he'

/-! ## The finished tree -/

/-- the statements of a block of the finished tree -/
def value (d : Draft) (i : Nat) : List Statement := (statements root d.blocks).getD i []

/-- an entry of the finished tree is filled from the blocks after its own -/
theorem getD_statements (blocks : List (List Entry)) (first k : Nat) (hk : k < blocks.length) :
    (statements first blocks).getD k [] = (blocks.getD k []).map (Entry.fill fun i =>
      if first + k < i then (statements first blocks).getD (i - first) [] else []) := by
  induction blocks generalizing first k with
  | nil => exact absurd hk (Nat.not_lt_zero k)
  | cons entries rest ih =>
    cases k with
    | zero =>
      simp only [statements, List.getD_cons_zero, Nat.add_zero]
      congr 2
      funext i
      split
      · rename_i hi
        obtain ⟨j, rfl⟩ : ∃ j, i = first + 1 + j := ⟨i - (first + 1), by omega⟩
        rw [show first + 1 + j - first = j + 1 by omega, List.getD_cons_succ, Nat.add_sub_cancel_left]
      · rfl
    | succ k =>
      simp only [statements, List.getD_cons_succ]
      rw [ih (first + 1) k (by simpa using hk)]
      congr 2
      funext i
      by_cases hi : first + 1 + k < i
      · obtain ⟨j, rfl⟩ : ∃ j, i = first + 1 + j := ⟨i - (first + 1), by omega⟩
        rw [if_pos hi, if_pos (by omega), show first + 1 + j - first = j + 1 by omega, List.getD_cons_succ,
          Nat.add_sub_cancel_left]
      · rw [if_neg hi, if_neg (by omega)]

/-- the finished tree solves the draft -/
theorem solves_value {d : Draft} (h : d.Ordered) : d.Solves 0 d.value := by
  intro i _ hi
  show (statements root d.blocks).getD i [] = _
  rw [getD_statements d.blocks root i hi]
  refine List.map_congr_left fun e he => Entry.fill_congr fun j hj => ?_
  have hlt : i < j := h i e he j hj
  simp [root, hlt, value]

theorem program_eq (d : Draft) : d.program.body = d.value root := by
  unfold program value root
  cases statements 0 d.blocks <;> simp

/-! ## What a block gets -/

variable (keep : StatementKind → Bool)

/-- the block into which a statement is put that is reached for block `b` -/
def home (b : Nat) (kind : StatementKind) : Nat := if keep kind then b else root

/-- what block `i` gets of statements that are reached for block `b` -/
def share (b i : Nat) (ts : List Statement) : List Statement :=
  ts.flatMap fun s =>
    (if i = home keep b s.kind then [s.prune keep] else []) ++ (if i = root then s.displaced keep else [])

@[simp] theorem share_nil (b i : Nat) : share keep b i [] = [] := rfl

theorem share_singleton (b i : Nat) (s : Statement) :
    share keep b i [s] =
      (if i = home keep b s.kind then [s.prune keep] else []) ++ (if i = root then s.displaced keep else []) := by
  simp [share]

theorem share_append (b i : Nat) (ts us : List Statement) :
    share keep b i (ts ++ us) = share keep b i ts ++ share keep b i us := by
  simp [share]

/-- an inner block gets the statements that stay -/
theorem share_block {b : Nat} (hb : b ≠ root) (ts : List Statement) : share keep b b ts = pruneAll keep ts := by
  induction ts with
  | nil => simp
  | cons s ts ih =>
    have hs : share keep b b [s] = if keep s.kind then [s.prune keep] else [] := by
      by_cases h : keep s.kind = true <;> simp [share_singleton, home, hb, h]
    rw [← List.singleton_append, share_append, hs, ih]
    by_cases h : keep s.kind = true <;> simp [pruneAll, h]

/-- the root gets the others -/
theorem share_root {b : Nat} (hb : b ≠ root) (ts : List Statement) : share keep b root ts = displacedAll keep ts := by
  induction ts with
  | nil => simp
  | cons s ts ih =>
    have hs : share keep b root [s] = (if keep s.kind then [] else [s.prune keep]) ++ s.displaced keep := by
      by_cases h : keep s.kind = true <;> simp [share_singleton, home, Ne.symm hb, h]
    rw [← List.singleton_append, share_append, hs, ih, List.singleton_append, displacedAll_cons, List.append_assoc]

/-- no other block gets anything -/
theorem share_other {b i : Nat} (hb : i ≠ b) (hr : i ≠ root) (ts : List Statement) : share keep b i ts = [] := by
  have hne : ∀ kind, i ≠ home keep b kind := by
    intro kind
    unfold home
    split
    · exact hb
    · exact hr
  simp [share, hne, hr]

/-- what is reached for the root is laid out there -/
theorem share_root_root (ts : List Statement) : share keep root root ts = layout keep ts := by
  simp [share, home, layout]

/-! ## What a step adds -/

/-- the statements `ts`, reached for block `b`, were laid out in the table -/
structure Adds (b : Nat) (ts : List Statement) (d d' : Draft) : Prop where
  size_le : d.size ≤ d'.size
  ordered : d.Ordered → d'.Ordered
  /-- old blocks other than `b` and the root are left alone -/
  frame : ∀ i < d.size, i ≠ b → i ≠ root → d'.block i = d.block i
  share : ∀ i < d.size, ∃ new, d'.block i = d.block i ++ new ∧
    ∀ value, d'.Solves d.size value → new.map (Entry.fill value) = share keep b i ts

variable {keep}

/-- a solution after a later step is one before it, for the blocks that the step left alone -/
theorem Adds.solves {b first : Nat} {ts : List Statement} {d d' : Draft} (h : Adds keep b ts d d')
    {value : Nat → List Statement} (hv : d'.Solves first value) (hb : b < first) : d.Solves first value := by
  intro i hi hlt
  have hne : i ≠ root := by
    unfold root
    omega
  rw [hv i hi (Nat.lt_of_lt_of_le hlt h.size_le), h.frame i hlt (by omega) hne]

theorem Solves.mono {d : Draft} {first later : Nat} {value : Nat → List Statement} (h : d.Solves first value)
    (hle : first ≤ later) : d.Solves later value :=
  fun i hi hlt => h i (Nat.le_trans hle hi) hlt

theorem Adds.refl (b : Nat) (d : Draft) : Adds keep b [] d d :=
  ⟨Nat.le_refl _, id, fun _ _ _ _ => rfl, fun _ _ => ⟨[], by simp, fun _ _ => by simp⟩⟩

/-- steps one after the other, for the same block -/
theorem Adds.trans {b : Nat} {ts us : List Statement} {d d1 d2 : Draft} (hb : b < d.size) (h1 : Adds keep b ts d d1)
    (h2 : Adds keep b us d1 d2) : Adds keep b (ts ++ us) d d2 := by
  refine ⟨h1.size_le.trans h2.size_le, fun h => h2.ordered (h1.ordered h), fun i hi hne hr => ?_, fun i hi => ?_⟩
  · rw [h2.frame i (Nat.lt_of_lt_of_le hi h1.size_le) hne hr, h1.frame i hi hne hr]
  · obtain ⟨new1, hblock1, hnew1⟩ := h1.share i hi
    obtain ⟨new2, hblock2, hnew2⟩ := h2.share i (Nat.lt_of_lt_of_le hi h1.size_le)
    refine ⟨new1 ++ new2, by rw [hblock2, hblock1, List.append_assoc], fun value hv => ?_⟩
    rw [List.map_append, hnew1 value (h2.solves hv hb), hnew2 value (hv.mono h1.size_le), share_append]

/-- a statement without blocks is put where it belongs -/
theorem adds_leaf {b : Nat} {d : Draft} (hb : b < d.size) {s : Statement} (hs : s.isLeaf) :
    Adds keep b [s] d (d.emit (home keep b s.kind) (.statement s)) := by
  have hhome : home keep b s.kind < d.size := by
    unfold home root
    split <;> omega
  refine ⟨by simp, fun h => h.emit hhome (by simp [Entry.names]), fun i _ hne hr => ?_, fun i _ => ?_⟩
  · have hi : i ≠ home keep b s.kind := by
      unfold home
      split
      · exact hne
      · exact hr
    simp [block_emit hhome, hi]
  · refine ⟨_, block_emit hhome _ i, fun value _ => ?_⟩
    rw [share_singleton]
    split <;> simp [Entry.fill, prune_leaf, hs, displaced_leaf]

/-- a block that was opened empty holds what was added for it -/
theorem Adds.value_eq {c : Nat} {ts : List Statement} {d d' : Draft} (h : Adds keep c ts d d') (hc : c < d.size)
    (hroot : c ≠ root) (hempty : d.block c = []) {value : Nat → List Statement} (hv : d'.Solves d.size value)
    (hvc : value c = (d'.block c).map (Entry.fill value)) : value c = pruneAll keep ts := by
  obtain ⟨new, hblock, hnew⟩ := h.share c hc
  rw [hvc, hblock, hempty, List.nil_append, hnew value hv, share_block keep hroot]

/-- the root gets from an inner block what does not stay there; other blocks get nothing -/
theorem share_inner {c i : Nat} (hc : c ≠ root) (hi : i ≠ c) (ts : List Statement) :
    Draft.share keep c i ts = if i = root then displacedAll keep ts else [] := by
  split
  · rename_i hr
    rw [hr, share_root keep hc]
  · rename_i hr
    exact share_other keep hi hr ts

/-- a loop is put into its block, and its children into a new one -/
theorem adds_forEach {b : Nat} {ts : List Statement} {d d' : Draft} {item : String} {iterable : Expression}
    (hk : keep .forEach = true) (hb : b < d.size)
    (h : Adds keep d.size ts (d.openBlock.emit b (.forEach item iterable d.size)) d') :
    Adds keep b [.forEach item iterable ts] d d' := by
  have hb' : b < d.openBlock.size := by simp; omega
  have hroot : d.size ≠ root := by unfold root; omega
  have hsize : (d.openBlock.emit b (.forEach item iterable d.size)).size = d.size + 1 := by simp
  have hblock : ∀ i, (d.openBlock.emit b (.forEach item iterable d.size)).block i =
      d.block i ++ if i = b then [.forEach item iterable d.size] else [] := by
    intro i
    rw [block_emit hb', block_openBlock]
  refine ⟨?_, fun ho => ?_, fun i hi hne hr => ?_, fun i hi => ?_⟩
  · have := h.size_le
    omega
  · exact h.ordered (ho.openBlock.emit hb' (by simpa [Entry.names] using hb))
  · rw [h.frame i (by omega) (by omega) hr, hblock]
    simp [hne]
  · obtain ⟨new, hnew, hfill⟩ := h.share i (by omega)
    refine ⟨_, by rw [hnew, hblock, List.append_assoc], fun value hv => ?_⟩
    have hlater : d'.Solves (d.openBlock.emit b (.forEach item iterable d.size)).size value := hv.mono (by omega)
    have hbody : value d.size = pruneAll keep ts := by
      refine h.value_eq (by omega) hroot ?_ hlater (hv d.size (Nat.le_refl _) (by have := h.size_le; omega))
      rw [hblock, block_of_size_le (Nat.le_refl _)]
      simp [Nat.ne_of_gt hb]
    have hentry : (if i = b then [Entry.forEach item iterable d.size] else []).map (Entry.fill value) =
        if i = b then [(forEach item iterable ts).prune keep] else [] := by
      split <;> simp [Entry.fill, hbody, prune]
    rw [List.map_append, hfill value hlater, share_inner hroot (by omega), hentry, share_singleton, displaced_forEach]
    simp [home, kind, hk]

/-- a conditional is put where it belongs, and its branches into two new blocks -/
theorem adds_conditional {b : Nat} {ts us : List Statement} {d d' d'' : Draft} {test : Expression} (hb : b < d.size)
    (h1 : Adds keep d.size ts
      (d.openBlock.openBlock.emit (home keep b .conditional) (.conditional test d.size (d.size + 1))) d')
    (h2 : Adds keep (d.size + 1) us d' d'') : Adds keep b [.conditional test ts us] d d'' := by
  have hhome : home keep b .conditional < d.size := by
    unfold home root
    split <;> omega
  have hroot : d.size ≠ root := by unfold root; omega
  have hroot' : d.size + 1 ≠ root := by unfold root; omega
  have hhome' : home keep b .conditional < d.openBlock.openBlock.size := by simp; omega
  have hordered : d.Ordered →
      (d.openBlock.openBlock.emit (home keep b .conditional) (.conditional test d.size (d.size + 1))).Ordered :=
    fun ho => ho.openBlock.openBlock.emit hhome' (by simp [Entry.names]; omega)
  have hblock : ∀ i, (d.openBlock.openBlock.emit (home keep b .conditional)
      (.conditional test d.size (d.size + 1))).block i =
        d.block i ++ if i = home keep b .conditional then [.conditional test d.size (d.size + 1)] else [] := by
    intro i
    rw [block_emit hhome', block_openBlock, block_openBlock]
  have hsize : (d.openBlock.openBlock.emit (home keep b .conditional)
      (.conditional test d.size (d.size + 1))).size = d.size + 2 := by simp
  generalize d.openBlock.openBlock.emit (home keep b .conditional) (.conditional test d.size (d.size + 1)) = d1
    at h1 hordered hblock hsize
  have hempty : ∀ i, d.size ≤ i → d1.block i = [] := by
    intro i hi
    rw [hblock, block_of_size_le hi]
    simp [Nat.ne_of_gt (Nat.lt_of_lt_of_le hhome hi)]
  have hle1 := h1.size_le
  have hle2 := h2.size_le
  refine ⟨by omega, fun ho => h2.ordered (h1.ordered (hordered ho)), fun i hi hne hr => ?_, fun i hi => ?_⟩
  · have hne' : i ≠ home keep b .conditional := by
      unfold home
      split
      · exact hne
      · exact hr
    rw [h2.frame i (by omega) (by omega) hr, h1.frame i (by omega) (by omega) hr, hblock]
    simp [hne']
  · obtain ⟨new1, hnew1, hfill1⟩ := h1.share i (by omega)
    obtain ⟨new2, hnew2, hfill2⟩ := h2.share i (by omega)
    refine ⟨_, by rw [hnew2, hnew1, hblock, List.append_assoc, List.append_assoc], fun value hv => ?_⟩
    have hv2 : d''.Solves d'.size value := hv.mono (by omega)
    have hv1 : d'.Solves d1.size value := h2.solves (hv.mono (by omega)) (by omega)
    have hconsequent : value d.size = pruneAll keep ts := by
      refine h1.value_eq (by omega) hroot (hempty _ (Nat.le_refl _)) hv1 ?_
      rw [← h2.frame d.size (by omega) (by omega) hroot]
      exact hv d.size (Nat.le_refl _) (by omega)
    have halternate : value (d.size + 1) = pruneAll keep us := by
      refine h2.value_eq (by omega) hroot' ?_ hv2 (hv (d.size + 1) (by omega) (by omega))
      rw [h1.frame (d.size + 1) (by omega) (by omega) hroot', hempty _ (by omega)]
    have hentry : (if i = home keep b .conditional then [Entry.conditional test d.size (d.size + 1)] else []).map
        (Entry.fill value) = if i = home keep b .conditional then [(conditional test ts us).prune keep] else [] := by
      split <;> simp [Entry.fill, hconsequent, halternate, prune]
    rw [List.map_append, List.map_append, hfill1 value hv1, hfill2 value hv2, share_inner hroot (by omega),
      share_inner hroot' (by omega), hentry, share_singleton, displaced_conditional,
      show (conditional test ts us).kind = .conditional from rfl]
    by_cases hr : i = root <;> simp [hr]

theorem program_body {ts : List Statement} {d : Draft} (h : Adds keep root ts empty d) :
    d.program.body = layout keep ts := by
  have hordered : empty.Ordered := by
    intro i e he
    cases i <;> simp [empty, block] at he
  have hv := solves_value (h.ordered hordered)
  obtain ⟨new, hnew, hfill⟩ := h.share root (by decide)
  have hroot := hv root (Nat.le_refl _) (Nat.lt_of_lt_of_le (by decide) h.size_le)
  have hblock : empty.block root = [] := rfl
  rw [program_eq, hroot, hnew, hblock, List.nil_append, hfill _ (hv.mono (Nat.zero_le _)), share_root_root]

end Draft

end Flowchart
