/-
The walk as a computation that changes its state.

`visit` hands the path and the table of blocks from call to call. Here the same walk changes one state (`Walker`): a node
is put into the set of active nodes when it is entered and taken out when it is left, on success as on an error, and what
was written before an error stays. Nothing says beforehand how deep this walk goes: the nodes that are still to be
entered are known only from the state. So it is given a depth, and to end is to end for every depth from some one on.

- `Walk.visit`: enter a node. `Node.plan` is what the node writes by itself, and the nodes that are entered from it.
- `Keeps`: what a visit leaves as it was, and how the rest may grow.
- `Walk.visit_mono`: more depth does not change what a visit comes out as.
- `Walk.visit_ends`: when the active nodes are those of a path, a visit goes no deeper than there are nodes off the path,
  keeps the state in this sense, and comes out as `visit` does for that path.
- `Made`: the visits that are made in a run, each with the path and the state in which it is made.
- `Made.visit_frame`: all of this holds for every visit that is made.
-/
import Flowchart.Proofs.BlockTree
import Flowchart.Proofs.Refinement
import Mathlib

namespace Flowchart

open Statement

/-! ## The state of the walk -/

/-- a visit that is made: the node, the one it is entered from, the block it is reached for, and what is done after it -/
structure Arrival where
  id : String
  via : String
  block : Nat
  k : Continuation
deriving DecidableEq, Repr

/-- how far the walk has come, and where it is -/
structure Walker extends Progress where
  /-- the nodes that are being walked -/
  active : Finset String := ∅
  /-- how many entries were put into blocks -/
  emitted : Nat := 0

namespace Walker

/-- a node is being walked -/
def enter (s : Walker) (id : String) : Walker := { s with active := insert id s.active }

/-- a node is no longer walked -/
def leave (s : Walker) (id : String) : Walker := { s with active := s.active.erase id }

/-- one more block -/
def openBlock (s : Walker) : Walker := { s with toProgress := s.toProgress.openBlock }

/-- one more entry at the end of a block -/
def emit (s : Walker) (b : Nat) (e : Entry) : Walker :=
  { s with toProgress := s.toProgress.emit b e, emitted := s.emitted + 1 }

/-- the function has returned -/
def setReturned (s : Walker) : Walker := { s with returned := true }

@[simp] theorem size_openBlock (s : Walker) : s.openBlock.draft.size = s.draft.size + 1 := Draft.size_openBlock _

@[simp] theorem size_emit (s : Walker) (b : Nat) (e : Entry) : (s.emit b e).draft.size = s.draft.size :=
  Draft.size_emit _ _ _

end Walker

/-- A computation that changes the walker. What it has changed stays after an error. It gives none when it goes too deep,
and when it writes to a block that does not exist. -/
abbrev Walk := ExceptT Error (StateT Walker Option)

namespace Walk

/-- the outcome of a reading -/
def read {α : Type} (x : Logged Error α) : Walk α := fun s => some (x.outcome, s)

/-- open a block, and give its number -/
def openBlock : Walk Nat := fun s => some (.ok s.draft.size, s.openBlock)

/-- put an entry at the end of a block, which must exist -/
def emit (b : Nat) (e : Entry) : Walk Unit := fun s => if b < s.draft.size then some (.ok (), s.emit b e) else none

variable {α β : Type} {x : Walk α} {f : α → Walk β} {s s' : Walker}

theorem bind_of_ok {a : α} (h : x s = some (.ok a, s')) : (x >>= f) s = f a s' := by
  show (x s >>= _ : Option _) = _
  rw [h]
  rfl

theorem bind_of_error {e : Error} (h : x s = some (.error e, s')) : (x >>= f) s = some (.error e, s') := by
  show (x s >>= _ : Option _) = _
  rw [h]
  rfl

/-- when both parts keep every result that they gave, so does one after the other -/
theorem bind_mono {x' : Walk α} {f' : α → Walk β} (hx : ∀ y, x s = some y → x' s = some y)
    (hf : ∀ a s y, f a s = some y → f' a s = some y) {y : Except Error β × Walker} (h : (x >>= f) s = some y) :
    (x' >>= f') s = some y := by
  cases hrun : x s with
  | none =>
    have hnone : (x >>= f) s = none := by
      show (x s >>= _ : Option _) = _
      rw [hrun]
      rfl
    rw [hnone] at h
    cases h
  | some z =>
    obtain ⟨r, s1⟩ := z
    cases r with
    | error e =>
      rw [bind_of_error hrun] at h
      rw [bind_of_error (hx _ hrun)]
      exact h
    | ok a =>
      rw [bind_of_ok hrun] at h
      rw [bind_of_ok (hx _ hrun)]
      exact hf a s1 y h

theorem get_run (s : Walker) : (get : Walk Walker) s = some (.ok s, s) := rfl

theorem read_of_ok {y : Logged Error α} {a : α} (h : y.outcome = .ok a) (s : Walker) :
    read y s = some (.ok a, s) := by
  rw [read, h]

theorem read_of_error {y : Logged Error α} {e : Error} (h : y.outcome = .error e) (s : Walker) :
    read y s = some (.error e, s) := by
  rw [read, h]

theorem openBlock_run (s : Walker) : openBlock s = some (.ok s.draft.size, s.openBlock) := rfl

theorem emit_of_lt {b : Nat} (hb : b < s.draft.size) (e : Entry) : emit b e s = some (.ok (), s.emit b e) :=
  if_pos hb

end Walk

/-! ## One node -/

namespace Node

/-- the visit after a node -/
def onward (n : Node) (g : Graph) (b : Nat) : Continuation → List Arrival
  | .follow => (g.next? n.id).toList.map fun edge => ⟨edge.target, n.id, b, .follow⟩
  | .stop => []

/-- the visit of the branch of a conditional for one outcome -/
def towards (n : Node) (g : Graph) (outcome : Bool) (b : Nat) : List Arrival :=
  (g.branch? n.id outcome).toList.map fun edge => ⟨edge.target, n.id, b, .follow⟩

/-- the visits of the children of a loop -/
def inward (n : Node) (b : Nat) : List Arrival := n.children.map fun child => ⟨child, n.id, b, .stop⟩

/-- a statement without blocks, and then the visit after it -/
def planStatement (n : Node) (g : Graph) (b : Nat) (k : Continuation) (x : Logged Error Statement) :
    Walk (List Arrival) := do
  let statement ← Walk.read x
  Walk.emit b (.statement statement)
  return n.onward g b k

/-- a conditional, and then the visits of its branches -/
def planConditional (n : Node) (g : Graph) (o : Options) (b : Nat) : Walk (List Arrival) := do
  let test ← Walk.read (n.expression "expression")
  let consequent ← Walk.openBlock
  let alternate ← Walk.openBlock
  Walk.emit (conditionalBlock o b) (.conditional test consequent alternate)
  return n.towards g true consequent ++ n.towards g false alternate

/-- a loop, and then the visits of its children and the one after it -/
def planLoop (n : Node) (g : Graph) (b : Nat) (k : Continuation) : Walk (List Arrival) := do
  let (iterable, item) ← Walk.read n.loopHead
  let body ← Walk.openBlock
  Walk.emit b (.forEach item iterable body)
  return n.inward body ++ n.onward g b k

/-- the end of the flow: the first that is reached returns -/
def planFinish (n : Node) : Walk (List Arrival) := do
  if (← get).returned then return []
  else
    let argument ← Walk.read (n.expression "output")
    Walk.emit Draft.root (.statement (.ret argument))
    modify Walker.setReturned
    return []

/-- what a node writes by itself, and the visits that are made from it, in order -/
def plan (n : Node) (g : Graph) (o : Options) (b : Nat) (k : Continuation) : Walk (List Arrival) :=
  match n.kind with
  | .start => return n.onward g b k
  | .setVariable => n.planStatement g b k n.assignment
  | .conditional => n.planConditional g o b
  | .httpCall => n.planStatement g b k (n.httpCall o.httpClient)
  | .loop => n.planLoop g b k
  | .finish => n.planFinish

end Node

/-- the node that is arrived at -/
def Walk.node (g : Graph) (c : Arrival) : Walk Node :=
  match g.node? c.id with
  | none => throw (.graph (.missingNode c.id c.via))
  | some n => return n

/-- Enter a node, with visits nested at most as deep as the number says. The node is active until all visits that are
made from it have ended, or one of them has failed. -/
def Walk.visit (g : Graph) (o : Options) : Nat → Arrival → Walk Unit
  | 0, _ => fun _ => none
  | depth + 1, c => do
    let n ← Walk.node g c
    if n.id ∈ (← get).active then throw (.graph (.cyclic n.id c.via))
    else (do
      modify (·.enter n.id)
      let result ← (n.plan g o c.block c.k >>= fun arrivals => arrivals.forM (Walk.visit g o depth)).run
      modify (·.leave n.id)
      return result : StateT Walker Option (Except Error Unit))

namespace Walk

variable {g : Graph} {o : Options} {depth depth' : Nat} {c : Arrival} {s s' : Walker} {n : Node}

theorem node_of_some (hn : g.node? c.id = some n) (s : Walker) : node g c s = some (.ok n, s) := by
  rw [node, hn]
  rfl

theorem visit_of_missing (hn : g.node? c.id = none) :
    visit g o (depth + 1) c s = some (.error (.graph (.missingNode c.id c.via)), s) := by
  have hnode : node g c s = some (.error (.graph (.missingNode c.id c.via)), s) := by
    rw [node, hn]
    rfl
  rw [visit, bind_of_error hnode]

theorem visit_of_active (hn : g.node? c.id = some n) (hp : n.id ∈ s.active) :
    visit g o (depth + 1) c s = some (.error (.graph (.cyclic n.id c.via)), s) := by
  rw [visit, bind_of_ok (node_of_some hn s), bind_of_ok (get_run s), if_pos hp]
  rfl

theorem visit_of_inactive (hn : g.node? c.id = some n) (hp : n.id ∉ s.active) :
    visit g o (depth + 1) c s =
      ((n.plan g o c.block c.k >>= fun arrivals => arrivals.forM (visit g o depth)) (s.enter n.id)).map
        fun y => (y.1, y.2.leave n.id) := by
  rw [visit, bind_of_ok (node_of_some hn s), bind_of_ok (get_run s), if_neg hp]
  show ((n.plan g o c.block c.k >>= fun arrivals => arrivals.forM (visit g o depth)) (s.enter n.id) >>= _ : Option _) = _
  cases (n.plan g o c.block c.k >>= fun arrivals => arrivals.forM (visit g o depth)) (s.enter n.id) <;> rfl

theorem visit_of_run (hn : g.node? c.id = some n) (hp : n.id ∉ s.active) {r : Except Error Unit}
    (h : (n.plan g o c.block c.k >>= fun arrivals => arrivals.forM (visit g o depth)) (s.enter n.id) = some (r, s')) :
    visit g o (depth + 1) c s = some (r, s'.leave n.id) := by
  rw [visit_of_inactive hn hp, h]
  rfl

theorem forM_mono {f f' : Arrival → Walk Unit} (hf : ∀ c s y, f c s = some y → f' c s = some y)
    {arrivals : List Arrival} {y : Except Error Unit × Walker} (h : arrivals.forM f s = some y) :
    arrivals.forM f' s = some y := by
  induction arrivals generalizing s y with
  | nil => exact h
  | cons c rest ih =>
    have hcons : ∀ f : Arrival → Walk Unit, (c :: rest).forM f = f c >>= fun _ => rest.forM f := fun _ => rfl
    rw [hcons] at h ⊢
    exact bind_mono (hf c s) (fun _ _ _ => ih) h

/-- More depth does not change what a visit comes out as. -/
theorem visit_mono (hle : depth ≤ depth') {y : Except Error Unit × Walker} (h : visit g o depth c s = some y) :
    visit g o depth' c s = some y := by
  induction depth generalizing depth' c s y with
  | zero => cases h
  | succ depth ih =>
    obtain ⟨k, rfl⟩ : ∃ k, depth' = k + 1 := ⟨depth' - 1, by omega⟩
    cases hn : g.node? c.id with
    | none =>
      rw [visit_of_missing hn] at h ⊢
      exact h
    | some n =>
      by_cases hp : n.id ∈ s.active
      · rw [visit_of_active hn hp] at h ⊢
        exact h
      · rw [visit_of_inactive hn hp] at h ⊢
        obtain ⟨z, hz, rfl⟩ := Option.map_eq_some_iff.1 h
        rw [bind_mono (fun _ hy => hy) (fun _ _ _ => forM_mono fun _ _ _ => ih (Nat.le_of_succ_le_succ hle)) hz]
        rfl

end Walk

/-! ## What a visit keeps -/

/-- the root got nothing, or the one return of the function -/
def RootGrows (s s' : Walker) : Prop :=
  (s'.draft.block Draft.root = s.draft.block Draft.root ∧ s'.returned = s.returned) ∨
    ∃ argument, s'.draft.block Draft.root = s.draft.block Draft.root ++ [.statement (.ret argument)] ∧
      s.returned = false ∧ s'.returned = true

theorem RootGrows.trans {s s1 s2 : Walker} (h1 : RootGrows s s1) (h2 : RootGrows s1 s2) : RootGrows s s2 := by
  rcases h1 with ⟨hblock1, hret1⟩ | ⟨argument, hblock1, hbefore, hret1⟩
  · rcases h2 with ⟨hblock2, hret2⟩ | ⟨argument, hblock2, hbefore, hret2⟩
    · exact Or.inl ⟨hblock2.trans hblock1, hret2.trans hret1⟩
    · exact Or.inr ⟨argument, by rw [hblock2, hblock1], by rw [← hret1, hbefore], hret2⟩
  · rcases h2 with ⟨hblock2, hret2⟩ | ⟨_, _, hbefore2, _⟩
    · exact Or.inr ⟨argument, by rw [hblock2, hblock1], hbefore, by rw [hret2, hret1]⟩
    · rw [hret1] at hbefore2
      cases hbefore2

/-- the root gets nothing of an entry that is put into another block -/
theorem RootGrows.of_ne {s s' : Walker} {home k : Nat} {e : Entry} (hhome : home < s.draft.size)
    (hne : home ≠ Draft.root) (hdraft : s'.draft = (s.draft.openBlocks k).emit home e)
    (hreturned : s'.returned = s.returned) : RootGrows s s' := by
  have hhome' : home < (s.draft.openBlocks k).size := by
    rw [Draft.size_openBlocks]
    omega
  refine Or.inl ⟨?_, hreturned⟩
  rw [hdraft, Draft.block_emit hhome', Draft.block_openBlocks, if_neg (Ne.symm hne), List.append_nil]

/-- what a visit for block `b` leaves as it was, and how the rest may grow -/
structure Keeps (o : Options) (b : Nat) (s s' : Walker) : Prop where
  /-- the active nodes are the same again -/
  active : s'.active = s.active
  /-- no block is given up -/
  size_le : s.draft.size ≤ s'.draft.size
  /-- old blocks other than `b` and the root are left alone -/
  others : ∀ i < s.draft.size, i ≠ b → i ≠ Draft.root → s'.draft.block i = s.draft.block i
  /-- old blocks only grow at their end -/
  appends : ∀ i < s.draft.size, s.draft.block i <+: s'.draft.block i
  /-- with nested conditionals, a visit for an inner block adds at most the return to the root -/
  root : o.placement = .nested → b ≠ Draft.root → RootGrows s s'
  /-- a function that has returned stays so -/
  returned : s.returned = true → s'.returned = true
  /-- every entry that was put into a block is one more in the table -/
  emitted : s'.emitted + s.draft.entries.length = s.emitted + s'.draft.entries.length
  /-- a tree stays a tree -/
  tree : s.draft.IsTree → s'.draft.IsTree
  /-- complete statements are put into the table without statements inside them -/
  flat : s.draft.Flat → s'.draft.Flat

namespace Keeps

variable {o : Options} {b : Nat} {s s' : Walker}

theorem refl (o : Options) (b : Nat) (s : Walker) : Keeps o b s s where
  active := rfl
  size_le := Nat.le_refl _
  others := fun _ _ _ _ => rfl
  appends := fun _ _ => List.prefix_rfl
  root := fun _ _ => Or.inl ⟨rfl, rfl⟩
  returned := id
  emitted := rfl
  tree := id
  flat := id

/-- visits one after the other: the second is for the same block, or for one that the first state did not have -/
theorem trans {b' : Nat} {s1 s2 : Walker} (h1 : Keeps o b s s1) (h2 : Keeps o b' s1 s2) (hb : b < s.draft.size)
    (hb' : b' = b ∨ s.draft.size ≤ b') : Keeps o b s s2 where
  active := h2.active.trans h1.active
  size_le := h1.size_le.trans h2.size_le
  others := by
    intro i hi hne hroot
    rw [h2.others i (Nat.lt_of_lt_of_le hi h1.size_le) (by omega) hroot, h1.others i hi hne hroot]
  appends := fun i hi => (h1.appends i hi).trans (h2.appends i (Nat.lt_of_lt_of_le hi h1.size_le))
  root := by
    intro ho hne
    have hne' : b' ≠ Draft.root := by
      rcases hb' with rfl | hle
      · exact hne
      · unfold Draft.root
        omega
    exact (h1.root ho hne).trans (h2.root ho hne')
  returned := fun h => h2.returned (h1.returned h)
  emitted := by
    have := h1.emitted
    have := h2.emitted
    omega
  tree := fun h => h2.tree (h1.tree h)
  flat := fun h => h2.flat (h1.flat h)

/-- blocks are opened, and an entry that names them is put into the block of the visit or into the root -/
theorem write {home k : Nat} {e : Entry} (hhome : home < s.draft.size) (hor : home = b ∨ home = Draft.root)
    (hnames : e.names = List.range' s.draft.size k) (hflat : e.Flat)
    (hdraft : s'.draft = (s.draft.openBlocks k).emit home e) (hactive : s'.active = s.active)
    (hemitted : s'.emitted = s.emitted + 1) (hreturned : s.returned = true → s'.returned = true)
    (hroot : o.placement = .nested → b ≠ Draft.root → RootGrows s s') : Keeps o b s s' := by
  have hhome' : home < (s.draft.openBlocks k).size := by
    rw [Draft.size_openBlocks]
    omega
  have hblock : ∀ i, s'.draft.block i = s.draft.block i ++ if i = home then [e] else [] := by
    intro i
    rw [hdraft, Draft.block_emit hhome', Draft.block_openBlocks]
  refine ⟨hactive, ?_, fun i hi hne hne' => ?_, fun i hi => ?_, hroot, hreturned, ?_, fun h => ?_, fun h => ?_⟩
  · rw [hdraft, Draft.size_emit, Draft.size_openBlocks]
    omega
  · have hi' : i ≠ home := by
      rcases hor with rfl | rfl
      · exact hne
      · exact hne'
    rw [hblock, if_neg hi', List.append_nil]
  · rw [hblock]
    exact List.prefix_append _ _
  · rw [hdraft, Draft.length_entries_emit hhome', Draft.entries_openBlocks, hemitted]
    omega
  · rw [hdraft]
    exact h.emit hhome hnames
  · rw [hdraft]
    exact h.emit hhome hflat

/-- the visit of a node is what happens while the node is active -/
theorem within {id : String} (h : Keeps o b (s.enter id) s') (hid : id ∉ s.active) : Keeps o b s (s'.leave id) where
  active := by
    show s'.active.erase id = s.active
    rw [h.active]
    exact Finset.erase_insert hid
  size_le := h.size_le
  others := h.others
  appends := h.appends
  root := h.root
  returned := h.returned
  emitted := h.emitted
  tree := h.tree
  flat := h.flat

end Keeps

/-! ## What a node writes -/

/-- visits one after the other, in the walk that hands its state on -/
def Enter.all (enter : Enter) (arrivals : List Arrival) (s : Progress) : Except Error Progress :=
  arrivals.foldlM (fun s c => (enter c.id c.block c.k s).outcome) s

theorem Enter.all_append (enter : Enter) (first rest : List Arrival) (s : Progress) :
    Enter.all enter (first ++ rest) s = Enter.all enter first s >>= Enter.all enter rest :=
  List.foldlM_append

namespace Node

section

variable (n : Node) (g : Graph) (enter : Enter) (b : Nat) (s : Progress)

theorem outcome_proceed (k : Continuation) : (n.proceed g b k enter s).outcome = Enter.all enter (n.onward g b k) s := by
  cases k with
  | stop => rfl
  | follow =>
    unfold proceed onward
    cases g.next? n.id with
    | none => rfl
    | some edge =>
      show (enter edge.target b .follow s).outcome = (enter edge.target b .follow s).outcome >>= pure
      rw [bind_pure]

theorem outcome_lowerBranch (outcome : Bool) :
    (n.lowerBranch g enter outcome b s).outcome = Enter.all enter (n.towards g outcome b) s := by
  unfold lowerBranch towards
  cases g.branch? n.id outcome with
  | none => rfl
  | some edge =>
    show (enter edge.target b .follow s).outcome = (enter edge.target b .follow s).outcome >>= pure
    rw [bind_pure]

theorem outcome_children (children : List String) :
    (children.foldlM (fun s child => enter child b .stop s) s).outcome =
      Enter.all enter (children.map fun child => ⟨child, n.id, b, .stop⟩) s := by
  induction children generalizing s with
  | nil => rfl
  | cons child rest ih =>
    rw [List.foldlM_cons, Logged.outcome_bind, List.map_cons, Enter.all, List.foldlM_cons]
    exact bind_congr fun s' => ih s'

end

variable {n : Node} {g : Graph} {o : Options} {b : Nat} {k : Continuation} {s s' : Walker}

theorem mem_onward {c : Arrival} (h : c ∈ n.onward g b k) : c.via = n.id ∧ c.block = b := by
  cases k with
  | stop => cases h
  | follow =>
    obtain ⟨edge, -, rfl⟩ := List.mem_map.1 h
    exact ⟨rfl, rfl⟩

theorem mem_towards {outcome : Bool} {c : Arrival} (h : c ∈ n.towards g outcome b) : c.via = n.id ∧ c.block = b := by
  obtain ⟨edge, -, rfl⟩ := List.mem_map.1 h
  exact ⟨rfl, rfl⟩

theorem mem_inward {c : Arrival} (h : c ∈ n.inward b) : c.via = n.id ∧ c.block = b := by
  obtain ⟨child, -, rfl⟩ := List.mem_map.1 h
  exact ⟨rfl, rfl⟩

/-- What a node wrote for block `b`, and the visits that are made from it. `lowered` is what the node adds in the walk
that hands its state on, given the way in which that enters further nodes. -/
structure Plans (n : Node) (o : Options) (b : Nat) (s : Walker) (lowered : Enter → Except Error Progress)
    (r : Except Error (List Arrival)) (s' : Walker) : Prop where
  keeps : Keeps o b s s'
  /-- a visit is for the same block, or for one that was opened for it -/
  places : ∀ arrivals, r = .ok arrivals → ∀ c ∈ arrivals,
    c.via = n.id ∧ (c.block = b ∨ s.draft.size ≤ c.block) ∧ c.block < s'.draft.size
  outcome : ∀ enter : Enter, lowered enter = r >>= fun arrivals => Enter.all enter arrivals s'.toProgress

/-- the plan ends, and what it wrote is as described -/
def PlanEnds (n : Node) (o : Options) (b : Nat) (s : Walker) (lowered : Enter → Except Error Progress)
    (x : Walk (List Arrival)) : Prop :=
  ∃ r s', x s = some (r, s') ∧ n.Plans o b s lowered r s'

/-- nothing is written when a property cannot be read -/
theorem plans_error {lowered : Enter → Except Error Progress} {e : Error} (h : ∀ enter, lowered enter = .error e) :
    n.Plans o b s lowered (.error e) s where
  keeps := Keeps.refl o b s
  places := by
    intro _ hr
    cases hr
  outcome := h

theorem planStatement_ends (hb : b < s.draft.size) {x : Logged Error Statement}
    (hleaf : ∀ statement, x.outcome = .ok statement → statement.isLeaf) :
    n.PlanEnds o b s (fun enter => x.outcome >>= fun statement =>
      (n.proceed g b k enter (s.toProgress.emit b (.statement statement))).outcome) (n.planStatement g b k x) := by
  unfold planStatement
  cases hread : x.outcome with
  | error e =>
    exact ⟨_, _, Walk.bind_of_error (Walk.read_of_error hread s), plans_error fun _ => rfl⟩
  | ok statement =>
    refine ⟨.ok (n.onward g b k), s.emit b (.statement statement), ?_, ?_, ?_, fun enter => ?_⟩
    · rw [Walk.bind_of_ok (Walk.read_of_ok hread s), Walk.bind_of_ok (Walk.emit_of_lt hb _)]
      rfl
    · exact .write (k := 0) (e := .statement statement) hb (Or.inl rfl) rfl (hleaf statement hread) rfl rfl rfl
        (fun h => h) fun _ hne => .of_ne (k := 0) hb hne rfl rfl
    · rintro _ ⟨rfl⟩ c hc
      obtain ⟨hvia, rfl⟩ := mem_onward hc
      exact ⟨hvia, Or.inl rfl, by simpa using hb⟩
    · exact outcome_proceed n g enter b _ k

theorem planConditional_ends (hb : b < s.draft.size) :
    n.PlanEnds o b s (fun enter => (n.lowerConditional g o b enter s.toProgress).outcome) (n.planConditional g o b) := by
  unfold planConditional
  cases hread : (n.expression "expression").outcome with
  | error e =>
    refine ⟨_, _, Walk.bind_of_error (Walk.read_of_error hread s), plans_error fun enter => ?_⟩
    simp [lowerConditional, hread]
  | ok test =>
    have hhome : conditionalBlock o b < s.draft.size := by
      unfold conditionalBlock Draft.root
      split <;> omega
    have hsize : s.openBlock.openBlock.draft.size = s.draft.size + 2 := by simp
    have hor : conditionalBlock o b = b ∨ conditionalBlock o b = Draft.root := by
      unfold conditionalBlock
      split
      · exact Or.inl rfl
      · exact Or.inr rfl
    refine ⟨.ok (n.towards g true s.draft.size ++ n.towards g false (s.draft.size + 1)),
      s.openBlock.openBlock.emit (conditionalBlock o b) (.conditional test s.draft.size (s.draft.size + 1)), ?_, ?_, ?_,
      fun enter => ?_⟩
    · rw [Walk.bind_of_ok (Walk.read_of_ok hread s), Walk.bind_of_ok (Walk.openBlock_run s),
        Walk.bind_of_ok (Walk.openBlock_run _), Walker.size_openBlock, Walk.bind_of_ok (Walk.emit_of_lt (by omega) _)]
      rfl
    · refine .write (k := 2) (e := .conditional test s.draft.size (s.draft.size + 1)) hhome hor rfl trivial rfl rfl rfl
        (fun h => h) fun ho hne => .of_ne (k := 2) hhome ?_ rfl rfl
      rwa [conditionalBlock, ho]
    · rintro _ ⟨rfl⟩ c hc
      rw [Walker.size_emit, hsize]
      rcases List.mem_append.1 hc with hc | hc
      · obtain ⟨hvia, hblock⟩ := mem_towards hc
        exact ⟨hvia, by omega, by omega⟩
      · obtain ⟨hvia, hblock⟩ := mem_towards hc
        exact ⟨hvia, by omega, by omega⟩
    · simp only [lowerConditional, Logged.outcome_bind, hread, ok_bind, outcome_lowerBranch, Enter.all_append]
      rfl

theorem planLoop_run {iterable : Expression} {item : String} (hread : n.loopHead.outcome = .ok (iterable, item))
    (hb : b < s.draft.size) :
    n.planLoop g b k s = some (.ok (n.inward s.draft.size ++ n.onward g b k),
      s.openBlock.emit b (.forEach item iterable s.draft.size)) := by
  have hb' : b < s.openBlock.draft.size := by
    rw [Walker.size_openBlock]
    omega
  unfold planLoop
  rw [Walk.bind_of_ok (Walk.read_of_ok hread s)]
  dsimp only
  rw [Walk.bind_of_ok (Walk.openBlock_run s), Walk.bind_of_ok (Walk.emit_of_lt hb' _)]
  rfl

theorem planLoop_ends (hb : b < s.draft.size) :
    n.PlanEnds o b s (fun enter => (n.lowerLoop b enter s.toProgress >>= n.proceed g b k enter).outcome)
      (n.planLoop g b k) := by
  cases hread : n.loopHead.outcome with
  | error e =>
    refine ⟨.error e, s, ?_, plans_error fun enter => ?_⟩
    · unfold planLoop
      exact Walk.bind_of_error (Walk.read_of_error hread s)
    · simp [lowerLoop, hread]
  | ok head =>
    obtain ⟨iterable, item⟩ := head
    refine ⟨_, _, planLoop_run hread hb, ?_, ?_, fun enter => ?_⟩
    · exact .write (k := 1) (e := .forEach item iterable s.draft.size) hb (Or.inl rfl) rfl trivial rfl rfl rfl
        (fun h => h) fun _ hne => .of_ne (k := 1) hb hne rfl rfl
    · rintro _ ⟨rfl⟩ c hc
      rw [Walker.size_emit, Walker.size_openBlock]
      rcases List.mem_append.1 hc with hc | hc
      · obtain ⟨hvia, hblock⟩ := mem_inward hc
        exact ⟨hvia, by omega, by omega⟩
      · obtain ⟨hvia, hblock⟩ := mem_onward hc
        exact ⟨hvia, by omega, by omega⟩
    · simp only [lowerLoop, Logged.outcome_bind, hread, ok_bind, outcome_children n, outcome_proceed, Enter.all_append]
      rfl

theorem planFinish_ends (hb : b < s.draft.size) :
    n.PlanEnds o b s (fun _ => (n.lowerFinish s.toProgress).outcome) n.planFinish := by
  unfold planFinish lowerFinish
  by_cases hreturned : s.returned = true
  · refine ⟨.ok [], s, ?_, Keeps.refl o b s, ?_, fun _ => ?_⟩
    · rw [Walk.bind_of_ok (Walk.get_run s), if_pos hreturned]
      rfl
    · rintro _ ⟨rfl⟩ c hc
      cases hc
    · rw [if_pos hreturned]
      rfl
  · have hroot : Draft.root < s.draft.size := Nat.zero_lt_of_lt hb
    cases hread : (n.expression "output").outcome with
    | error e =>
      refine ⟨.error e, s, ?_, plans_error fun _ => ?_⟩
      · rw [Walk.bind_of_ok (Walk.get_run s), if_neg hreturned, Walk.bind_of_error (Walk.read_of_error hread s)]
      · rw [if_neg hreturned, Logged.outcome_bind, hread]
        rfl
    | ok argument =>
      refine ⟨.ok [], (s.emit Draft.root (.statement (.ret argument))).setReturned, ?_, ?_, ?_, fun _ => ?_⟩
      · rw [Walk.bind_of_ok (Walk.get_run s), if_neg hreturned, Walk.bind_of_ok (Walk.read_of_ok hread s),
          Walk.bind_of_ok (Walk.emit_of_lt hroot _)]
        rfl
      · refine .write (k := 0) (e := .statement (.ret argument)) hroot (Or.inr rfl) rfl rfl rfl rfl rfl (fun _ => rfl)
          fun _ _ => Or.inr ⟨argument, ?_, by simpa using hreturned, rfl⟩
        exact (Draft.block_emit hroot _ _).trans (by rw [if_pos rfl])
      · rintro _ ⟨rfl⟩ c hc
        cases hc
      · rw [if_neg hreturned, Logged.outcome_bind, hread]
        rfl

/-- **One node.** What it writes keeps the rest, and is what it adds in the walk that hands its state on. -/
theorem plan_ends (hb : b < s.draft.size) :
    n.PlanEnds o b s (fun enter => (n.lower g o b k enter s.toProgress).outcome) (n.plan g o b k) := by
  unfold plan lower
  cases hk : n.kind with
  | start =>
    refine ⟨.ok (n.onward g b k), s, rfl, Keeps.refl o b s, ?_, fun enter => ?_⟩
    · rintro _ ⟨rfl⟩ c hc
      obtain ⟨hvia, rfl⟩ := mem_onward hc
      exact ⟨hvia, Or.inl rfl, hb⟩
    · exact outcome_proceed n g enter b s.toProgress k
  | setVariable =>
    simp only [Logged.outcome_bind, Logged.outcome_log, ok_bind]
    exact planStatement_ends hb fun statement h => isLeaf_of_kind (by simp [kind_assignment h])
  | conditional =>
    simp only [Logged.outcome_bind, Logged.outcome_log, ok_bind]
    exact planConditional_ends hb
  | httpCall =>
    simp only [Logged.outcome_bind, Logged.outcome_log, ok_bind]
    exact planStatement_ends hb fun statement h => isLeaf_of_kind (by simp [kind_httpCall h])
  | loop => exact planLoop_ends hb
  | finish => exact planFinish_ends hb

end Node

/-! ## The walk ends -/

namespace Walk

variable {d : Document} {g : Graph} {o : Options} {b depth : Nat} {s : Walker}

/-- a visit ends, keeps the rest, and comes out as in the walk that hands its state on -/
def Ends (o : Options) (b : Nat) (s : Walker) (x : Walk Unit) (outcome : Except Error Progress) : Prop :=
  ∃ r s', x s = some (r, s') ∧ Keeps o b s s' ∧ (fun _ => s'.toProgress) <$> r = outcome

/-- Visits one after the other, up to the first that fails. They are for block `b` of the state `base` in which the node
was entered, or for blocks that were opened since. -/
theorem forM_ends (enter : Enter) (base : Walker) (hb : b < base.draft.size) {arrivals : List Arrival}
    (hplaces : ∀ c ∈ arrivals, c.block = b ∨ base.draft.size ≤ c.block)
    (henter : ∀ c ∈ arrivals, ∀ s : Walker, s.active = base.active → c.block < s.draft.size →
      Ends o c.block s (visit g o depth c) (enter c.id c.block c.k s.toProgress).outcome)
    (hkeeps : Keeps o b base s) (hlt : ∀ c ∈ arrivals, c.block < s.draft.size) :
    ∃ r s', arrivals.forM (visit g o depth) s = some (r, s') ∧ Keeps o b base s' ∧ s.draft.size ≤ s'.draft.size ∧
      (fun _ => s'.toProgress) <$> r = Enter.all enter arrivals s.toProgress := by
  induction arrivals generalizing s with
  | nil => exact ⟨.ok (), s, rfl, hkeeps, Nat.le_refl _, rfl⟩
  | cons c rest ih =>
    obtain ⟨hplace, hplaces⟩ := List.forall_mem_cons.1 hplaces
    obtain ⟨hvisit, henter⟩ := List.forall_mem_cons.1 henter
    obtain ⟨hc, hlt⟩ := List.forall_mem_cons.1 hlt
    obtain ⟨r, s1, hrun, hkeeps1, hout⟩ := hvisit s hkeeps.active hc
    have hbase := hkeeps.trans hkeeps1 hb hplace
    have hall : Enter.all enter (c :: rest) s.toProgress =
        ((fun _ => s1.toProgress) <$> r) >>= Enter.all enter rest := by
      rw [Enter.all, List.foldlM_cons, hout]
      rfl
    have hcons : (c :: rest).forM (visit g o depth) = visit g o depth c >>= fun _ => rest.forM (visit g o depth) := rfl
    rw [hcons, hall]
    cases r with
    | error e => exact ⟨_, _, bind_of_error hrun, hbase, hkeeps1.size_le, rfl⟩
    | ok =>
      obtain ⟨r, s2, hrest, hkeeps2, hle, hout2⟩ :=
        ih hplaces henter hbase fun c' hc' => Nat.lt_of_lt_of_le (hlt c' hc') hkeeps1.size_le
      exact ⟨r, s2, by rw [bind_of_ok hrun, hrest], hkeeps2, hkeeps1.size_le.trans hle, hout2⟩

/-- **Every visit ends.** When the active nodes are those of a path, a visit goes no deeper than there are nodes off the
path, and one more. It keeps the rest of the state, and comes out as `visit` does for this path. -/
theorem visit_ends (hg : g.Indexes d) (o : Options) {path : List String} {c : Arrival} {s : Walker}
    (hactive : s.active = path.toFinset) (hb : c.block < s.draft.size) (hdepth : d.offPath path < depth) :
    Ends o c.block s (visit g o depth c) (Flowchart.visit g o path c.id c.via c.block c.k s.toProgress).outcome := by
  generalize hid : c.id = id
  -- the measure is the number of nodes off the path: the set of active nodes shrinks again, the path does not
  induction path, id using d.path_induction generalizing c s depth with
  | enter path id ih =>
    subst hid
    obtain ⟨depth, rfl⟩ : ∃ k, depth = k + 1 := ⟨depth - 1, by omega⟩
    cases hn : d.node? c.id with
    | none =>
      have hn' : g.node? c.id = none := (hg.node? c.id).trans hn
      refine ⟨_, s, visit_of_missing hn', Keeps.refl o c.block s, ?_⟩
      rw [visit_missing hn']
      rfl
    | some n =>
      have hn' : g.node? c.id = some n := (hg.node? c.id).trans hn
      have hid : n.id = c.id := Document.node?_id hn
      have hmem : n.id ∈ s.active ↔ c.id ∈ path := by rw [hactive, hid, List.mem_toFinset]
      by_cases hp : c.id ∈ path
      · refine ⟨_, s, visit_of_active hn' (hmem.2 hp), Keeps.refl o c.block s, ?_⟩
        rw [visit_repeated hn' hp, hid]
        rfl
      · have hp' : n.id ∉ s.active := fun h => hp (hmem.1 h)
        obtain ⟨r, s1, hplan, hplans⟩ := n.plan_ends (g := g) (o := o) (k := c.k) (s := s.enter n.id) hb
        rw [visit_enter hn' hp]
        let enter : Enter := fun child block k s => Flowchart.visit g o (c.id :: path) child c.id block k s
        have hlower := hplans.outcome enter
        cases r with
        | error e =>
          refine ⟨_, _, visit_of_run hn' hp' (bind_of_error hplan), hplans.keeps.within hp', ?_⟩
          exact hlower.symm
        | ok arrivals =>
          have hplaces := hplans.places arrivals rfl
          have henter : ∀ c' ∈ arrivals, ∀ s' : Walker, s'.active = (s.enter n.id).active → c'.block < s'.draft.size →
              Ends o c'.block s' (visit g o depth c') (enter c'.id c'.block c'.k s'.toProgress).outcome := by
            intro c' hc' s' hs' hb'
            have hactive' : s'.active = (c.id :: path).toFinset := by
              rw [hs', List.toFinset_cons, ← hactive, ← hid]
              rfl
            have hoff : d.offPath (c.id :: path) < depth := by
              have hcons := Document.offPath_cons_lt hn hp
              omega
            have hends := ih n hn hp c'.id hactive' hb' hoff rfl
            rwa [(hplaces c' hc').1, hid] at hends
          obtain ⟨r, s2, hrun, hkeeps, -, hout⟩ := forM_ends enter (s.enter n.id) hb
            (fun c' hc' => (hplaces c' hc').2.1) henter hplans.keeps fun c' hc' => (hplaces c' hc').2.2
          refine ⟨r, s2.leave n.id, ?_, hkeeps.within hp', ?_⟩
          · exact visit_of_run hn' hp' (by rw [bind_of_ok hplan, hrun])
          · exact hout.trans hlower.symm

/-- the result of a visit is the same for every depth that suffices -/
theorem visit_settles (hg : g.Indexes d) (o : Options) {path : List String} {c : Arrival} {s : Walker}
    (hactive : s.active = path.toFinset) (hb : c.block < s.draft.size) :
    ∃ r s', (∀ depth, d.offPath path < depth → visit g o depth c s = some (r, s')) ∧ Keeps o c.block s s' ∧
      (fun _ => s'.toProgress) <$> r = (Flowchart.visit g o path c.id c.via c.block c.k s.toProgress).outcome := by
  obtain ⟨r, s', hrun, hkeeps, hout⟩ := visit_ends hg o hactive hb (Nat.lt_succ_self (d.offPath path))
  exact ⟨r, s', fun depth hdepth => visit_mono hdepth hrun, hkeeps, hout⟩

end Walk

/-! ## The visits of a run -/

/-- `Made g o path c s`: in the walk from the start node, the visit `c` is made in the state `s`, while the nodes of
`path` are being walked, the last first. After the first visit, one is made from each node that was entered, once it has
written what it adds and all visits before have ended without an error, for whatever depth. -/
inductive Made (g : Graph) (o : Options) : List String → Arrival → Walker → Prop
  | start {n : Node} (hs : g.start = .ok n) : Made g o [] ⟨n.id, n.id, Draft.root, .follow⟩ {}
  | next (depth : Nat) {path : List String} {c c' : Arrival} {s s1 s2 : Walker} {n : Node} {before after : List Arrival}
    (hc : Made g o path c s) (hn : g.node? c.id = some n) (hp : n.id ∉ s.active)
    (hplan : n.plan g o c.block c.k (s.enter n.id) = some (.ok (before ++ c' :: after), s1))
    (hbefore : before.forM (Walk.visit g o depth) s1 = some (.ok (), s2)) : Made g o (n.id :: path) c' s2

namespace Made

variable {d : Document} {g : Graph} {o : Options} {path : List String} {c : Arrival} {s : Walker}

/-- the path has no node twice, and the active nodes are those of the path -/
structure OnPath (d : Document) (path : List String) (c : Arrival) (s : Walker) : Prop where
  nodup : path.Nodup
  nodes : ∀ id ∈ path, id ∈ d.ids
  active : s.active = path.toFinset
  block_lt : c.block < s.draft.size

theorem onPath (hg : g.Indexes d) (h : Made g o path c s) : OnPath d path c s := by
  induction h with
  | start => exact ⟨List.nodup_nil, List.forall_mem_nil _, rfl, Nat.zero_lt_one⟩
  | @next depth path c c' s s1 s2 n before after hc hn hp hplan hbefore ih =>
    have hactive : (s.enter n.id).active = (n.id :: path).toFinset := by
      rw [List.toFinset_cons, ← ih.active]
      rfl
    obtain ⟨r, s1', hplan', hplans⟩ := n.plan_ends (g := g) (o := o) (k := c.k) (s := s.enter n.id) ih.block_lt
    cases hplan.symm.trans hplan'
    have hplaces := hplans.places _ rfl
    obtain ⟨hfirst, hrest⟩ := List.forall_mem_append.1 hplaces
    -- the visits before ended for the depth they had, so they come out the same for one that surely suffices
    have henough := Walk.forM_mono
      (fun _ _ _ => Walk.visit_mono (Nat.le_max_left depth (d.offPath (n.id :: path) + 1))) hbefore
    obtain ⟨r, s2', hbefore', hkeeps, hle, -⟩ := Walk.forM_ends
      (fun child block k s => visit g o (n.id :: path) child n.id block k s) (s.enter n.id) ih.block_lt
      (fun c'' hc'' => (hfirst c'' hc'').2.1)
      (fun c'' hc'' s' hs' hb' =>
        (hfirst c'' hc'').1 ▸ Walk.visit_ends hg o (hs'.trans hactive) hb' (Nat.le_max_right _ _))
      hplans.keeps
      (fun c'' hc'' => (hfirst c'' hc'').2.2)
    cases henough.symm.trans hbefore'
    have hlt := (hrest c' List.mem_cons_self).2.2
    refine ⟨List.nodup_cons.2 ⟨?_, ih.nodup⟩, List.forall_mem_cons.2 ⟨?_, ih.nodes⟩, ?_, Nat.lt_of_lt_of_le hlt hle⟩
    · rwa [ih.active, List.mem_toFinset] at hp
    · have hn' := (hg.node? c.id).symm.trans hn
      rw [Document.node?_id hn']
      exact Document.node?_isSome.1 (by simp [hn'])
    · rw [hkeeps.active, hactive]

/-- a path and the nodes off it are no more than there are nodes -/
theorem OnPath.offPath_add_length_le (h : OnPath d path c s) : d.offPath path + path.length ≤ d.ids.length := by
  have hsub : path ⊆ d.ids.filter (· ∈ path) := fun id hid => List.mem_filter.2 ⟨h.nodes id hid, by simpa using hid⟩
  have hle := (h.nodup.subperm hsub).length_le
  have hsum := List.length_eq_length_filter_add (l := d.ids) (fun id => decide (id ∈ path))
  simp only [Document.offPath, decide_not]
  omega

/-- **Frame and termination of a visit.** For every visit that is made, whatever cycles the graph has: the active nodes
are nodes of the graph, and are those of the path, which has none twice. So there are never more visits that have not
ended than one for each node, and one more; and this is all the depth that the visit needs to end. With an error or
without one, the active nodes are then the same again, and `Keeps` says what became of the blocks. The result is that of
`visit` for this path. -/
theorem visit_frame (hg : Graph.ofDocument d = .ok g) (h : Made g o path c s) :
    (∀ id ∈ s.active, ∃ n ∈ g.nodes, n.id = id) ∧ path.Nodup ∧ s.active = path.toFinset ∧
      path.length + 1 ≤ g.nodes.length + 1 ∧
      ∃ r s', (∀ depth, g.nodes.length + 1 ≤ path.length + depth → Walk.visit g o depth c s = some (r, s')) ∧
        Keeps o c.block s s' ∧
        (fun _ => s'.toProgress) <$> r = (visit g o path c.id c.via c.block c.k s.toProgress).outcome := by
  have hindex := Graph.indexes_ofDocument hg
  have hpath := h.onPath hindex
  have hids : g.nodes.map (·.id) = d.ids := by rw [hindex.nodes, Document.ids]
  have hlength : g.nodes.length = d.ids.length := by rw [← hids, List.length_map]
  have hoff := hpath.offPath_add_length_le
  obtain ⟨r, s', hrun, hkeeps, hout⟩ := Walk.visit_settles hindex o hpath.active hpath.block_lt
  refine ⟨fun id hid => ?_, hpath.nodup, hpath.active, by omega, r, s', fun depth hdepth => hrun depth (by omega),
    hkeeps, hout⟩
  rw [hpath.active, List.mem_toFinset] at hid
  exact List.mem_map.1 (hids ▸ hpath.nodes id hid)

end Made

/-- a loop that lists itself -/
def selfLoopNode : Node :=
  ⟨"l", .loop, [("loopArray", .str "$xs"), ("currentItemName", .str "x")], ["l"]⟩

/-- a flow that goes from its start to this loop -/
def selfLoop : Document where
  nodes := [⟨"s", .start, [], []⟩, selfLoopNode]
  edges := [⟨"s", "l", none⟩]

/-- the state in which the loop is visited again, for the block of its body -/
def selfLoopState : Walker :=
  ((({} : Walker).enter "s").enter "l").openBlock.emit Draft.root (.forEach "x" (.identifier "xs") 1)

theorem made_selfLoop {g : Graph} (hg : g.Indexes selfLoop) :
    Made g {} ["l", "s"] ⟨"l", "l", 1, .stop⟩ selfLoopState := by
  have hnext : g.next? "s" = some ⟨"s", "l", none⟩ := by
    simp [Graph.next?, Graph.plainEdgesFrom, hg.edgesFrom, selfLoop]
  have hlast : g.next? "l" = none := by
    simp [Graph.next?, Graph.plainEdgesFrom, hg.edgesFrom, selfLoop]
  have hplan : Node.plan ⟨"s", .start, [], []⟩ g {} Draft.root .follow (({} : Walker).enter "s") =
      some (.ok ([] ++ ⟨"l", "s", Draft.root, .follow⟩ :: []), ({} : Walker).enter "s") := by
    show some (Except.ok (Node.onward _ g Draft.root .follow), _) = _
    rw [Node.onward, hnext]
    rfl
  have hentered : Made g {} ["s"] ⟨"l", "s", Draft.root, .follow⟩ (({} : Walker).enter "s") :=
    .next 0 (.start (hg.start_eq_ok.2 rfl)) ((hg.node? "s").trans rfl) (Finset.notMem_empty _) hplan rfl
  have hread : selfLoopNode.loopHead.outcome = .ok (.identifier "xs", "x") := by cbv
  have hloop : selfLoopNode.plan g {} Draft.root .follow ((({} : Walker).enter "s").enter "l") =
      some (.ok ([] ++ ⟨"l", "l", 1, .stop⟩ :: []), selfLoopState) := by
    refine (Node.planLoop_run hread Nat.zero_lt_one).trans ?_
    rw [Node.onward, show selfLoopNode.id = "l" from rfl, hlast]
    rfl
  exact .next 0 hentered ((hg.node? "l").trans rfl) (by decide) hloop rfl

theorem visit_frame_selfLoop :
    ∃ g, Graph.ofDocument selfLoop = .ok g ∧ Made g {} ["l", "s"] ⟨"l", "l", 1, .stop⟩ selfLoopState ∧
      (∀ id ∈ selfLoopState.active, ∃ n ∈ g.nodes, n.id = id) ∧ selfLoopState.active = ["l", "s"].toFinset ∧
      ∃ r s', Walk.visit g {} 1 ⟨"l", "l", 1, .stop⟩ selfLoopState = some (r, s') ∧ Keeps {} 1 selfLoopState s' ∧
        (fun _ => s'.toProgress) <$> r = (visit g {} ["l", "s"] "l" "l" 1 .stop selfLoopState.toProgress).outcome := by
  obtain ⟨g, hg⟩ := (Graph.ofDocument_isOk selfLoop).2 ⟨by decide, by decide⟩
  have hindex := Graph.indexes_ofDocument hg
  have hmade := made_selfLoop hindex
  obtain ⟨hnodes, -, hactive, -, r, s', hrun, hkeeps, hout⟩ := hmade.visit_frame hg
  have hdepth : g.nodes.length + 1 ≤ ["l", "s"].length + 1 := by
    rw [hindex.nodes]
    decide
  exact ⟨g, hg, hmade, hnodes, hactive, r, s', hrun 1 hdepth, hkeeps, hout⟩

end Flowchart
