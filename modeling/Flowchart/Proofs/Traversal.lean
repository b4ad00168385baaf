/-
The traversal of a flow.

A flow is traversed from its start node. A visit is a node together with what is done after it. From a conditional the
traversal goes to the targets of its two branches, from a loop to its children, and from all nodes but conditionals and
ends it goes on by the next edge when the visit asks for that (`Step`).

- `Run`: the traversal comes to a visit by a path. `tour` is the depth-first order: for each visit, the nodes that are
  entered from there on.
- `Clear`: from a visit on, the traversal comes to no missing node and to no node that is on its path.
- `clear_of_runs`, `AllClear.nodup`: the traversal is clear exactly when all paths come to nodes, and to none twice.
- `AllClear.mem_traversal`: the depth-first order of a clear traversal has the nodes that some path leads to.
-/
import Flowchart.Proofs.Direct

namespace Flowchart

/-- a node that the traversal comes to, and what is done after it -/
structure Visit where
  id : String
  k : Continuation
deriving DecidableEq, Repr

/-- visit the target of an edge, if there is one -/
def Visit.onward (target : Option String) : List Visit := target.toList.map fun id => ⟨id, .follow⟩

@[simp] theorem Visit.mem_onward {target : Option String} {c : Visit} :
    c ∈ onward target ↔ target = some c.id ∧ c.k = .follow := by
  obtain ⟨id, k⟩ := c
  cases target <;> simp [onward, eq_comm]

/-- the node ends the flow -/
def Node.isEnd (n : Node) : Bool := n.kind = .finish

theorem Node.isEnd_iff {n : Node} : n.isEnd ↔ n.kind = .finish := decide_eq_true_iff

namespace Document

/-- one step of the traversal -/
inductive Step (d : Document) : Visit → Visit → Prop
  /-- go on by the first edge without a condition -/
  | next {id target : String} {n : Node} (hn : d.node? id = some n) (hc : n.kind ≠ .conditional) (hf : n.kind ≠ .finish)
    (ht : d.target? id none = some target) : Step d ⟨id, .follow⟩ ⟨target, .follow⟩
  /-- go into a branch of a conditional, by the first edge with its outcome -/
  | branch {id target : String} {k : Continuation} {n : Node} (hn : d.node? id = some n) (hc : n.kind = .conditional)
    (outcome : Bool) (ht : d.target? id (some outcome) = some target) : Step d ⟨id, k⟩ ⟨target, .follow⟩
  /-- go to a child of a loop -/
  | child {id child : String} {k : Continuation} {n : Node} (hn : d.node? id = some n) (hl : n.kind = .loop)
    (hc : child ∈ n.children) : Step d ⟨id, k⟩ ⟨child, .stop⟩

/-- the traversal comes to a visit by a path, the last visit first -/
inductive Run (d : Document) : Visit → List Visit → Prop
  | start {n : Node} (hn : n ∈ d.starts) : Run d ⟨n.id, .follow⟩ []
  | step {c c' : Visit} {path : List Visit} (hr : Run d c path) (hs : Step d c c') : Run d c' (c :: path)

/-- some path leads to a node -/
def Reaches (d : Document) (n : Node) : Prop := ∃ c path, d.Run c path ∧ d.node? c.id = some n

/-! ## Depth first -/

/-- what is visited for the first block of a node: the branch for true, or the children of a loop -/
def firstBlock (d : Document) (n : Node) : List Visit :=
  match n.kind with
  | .conditional => Visit.onward (d.target? n.id (some true))
  | .loop => n.children.map fun child => ⟨child, .stop⟩
  | _ => []

/-- what is visited for the second block of a node: the branch for false -/
def secondBlock (d : Document) (n : Node) : List Visit :=
  match n.kind with
  | .conditional => Visit.onward (d.target? n.id (some false))
  | _ => []

/-- what is visited after a node -/
def after (d : Document) (n : Node) (k : Continuation) : List Visit :=
  match n.kind with
  | .conditional => []
  | .finish => []
  | _ => Visit.onward (d.next? n.id k)

/-- where the traversal goes from a node, in order -/
def steps (d : Document) (n : Node) (k : Continuation) : List Visit := d.firstBlock n ++ d.secondBlock n ++ d.after n k

/-- the nodes that a depth-first traversal enters from a visit on; it does not enter the nodes on the path -/
def tour (d : Document) (path : List String) (c : Visit) : List Node :=
  match hn : d.node? c.id with
  | none => []
  | some n =>
    if hp : c.id ∈ path then []
    else
      have := offPath_cons_lt hn hp
      n :: (d.steps n c.k).flatMap fun c' => d.tour (c.id :: path) c'
termination_by d.offPath path

/-- the nodes of a flow in depth-first order, each as often as it is entered -/
def traversal (d : Document) : List Node := d.starts.flatMap fun n => d.tour [] ⟨n.id, .follow⟩

/-- the first end in depth-first order -/
def firstEnd? (d : Document) : Option Node := d.traversal.find? Node.isEnd

variable {d : Document}

theorem mem_after {n : Node} {k : Continuation} {c : Visit} :
    c ∈ d.after n k ↔
      n.kind ≠ .conditional ∧ n.kind ≠ .finish ∧ k = .follow ∧ d.target? n.id none = some c.id ∧ c.k = .follow := by
  unfold after next?
  cases hk : n.kind <;> cases k <;> simp

/-- the list of steps has the steps of the traversal -/
theorem mem_steps {c c' : Visit} {n : Node} (hn : d.node? c.id = some n) :
    c' ∈ d.steps n c.k ↔ d.Step c c' := by
  have hid := node?_id hn
  obtain ⟨id, k⟩ := c
  obtain ⟨id', k'⟩ := c'
  subst hid
  constructor
  · intro h
    simp only [steps, List.mem_append, mem_after] at h
    rcases h with (h | h) | ⟨hc, hf, rfl, ht, rfl⟩
    · unfold firstBlock at h
      split at h
      · rename_i hk
        obtain ⟨ht, rfl⟩ := Visit.mem_onward.1 h
        exact .branch hn hk true ht
      · rename_i hk
        obtain ⟨child, hc, hv⟩ := List.mem_map.1 h
        cases hv
        exact .child hn hk hc
      · cases h
    · unfold secondBlock at h
      split at h
      · rename_i hk
        obtain ⟨ht, rfl⟩ := Visit.mem_onward.1 h
        exact .branch hn hk false ht
      · cases h
    · exact .next hn hc hf ht
  · intro h
    simp only [steps, List.mem_append, mem_after]
    cases h with
    | next hm hc hf ht =>
      cases hn.symm.trans hm
      exact Or.inr ⟨hc, hf, rfl, ht, rfl⟩
    | branch hm hc outcome ht =>
      cases hn.symm.trans hm
      cases outcome <;> simp [firstBlock, secondBlock, hc, ht]
    | child hm hl hc =>
      cases hn.symm.trans hm
      simp [firstBlock, hl, hc]

theorem tour_enter {path : List String} {c : Visit} {n : Node} (hn : d.node? c.id = some n) (hp : c.id ∉ path) :
    d.tour path c = n :: (d.steps n c.k).flatMap (d.tour (c.id :: path)) := by
  rw [tour]
  split
  · rename_i h
    rw [hn] at h
    cases h
  · rename_i m h
    rw [hn] at h
    cases h
    rw [dif_neg hp]

/-! ## Clear traversals -/

/-- from a visit on, the traversal comes to no missing node and to no node that is on its path -/
inductive Clear (d : Document) : List String → Visit → Prop
  | enter {path : List String} {c : Visit} {n : Node} (hn : d.node? c.id = some n) (hp : c.id ∉ path)
    (hs : ∀ c' ∈ d.steps n c.k, Clear d (c.id :: path) c') : Clear d path c

/-- from every start node, the traversal is clear -/
def AllClear (d : Document) : Prop := ∀ n ∈ d.starts, d.Clear [] ⟨n.id, .follow⟩

variable {c c' : Visit} {path : List Visit} {n : Node}

theorem Clear.step {path : List String} (h : d.Clear path c) (hs : d.Step c c') : d.Clear (c.id :: path) c' := by
  obtain ⟨hn, -, h⟩ := h
  exact h c' ((mem_steps hn).2 hs)

theorem Clear.notMem {path : List String} (h : d.Clear path c) : c.id ∉ path := by
  obtain ⟨-, hp, -⟩ := h
  exact hp

theorem Clear.exists_node {path : List String} (h : d.Clear path c) : ∃ n, d.node? c.id = some n := by
  obtain ⟨hn, -, -⟩ := h
  exact ⟨_, hn⟩

theorem AllClear.clear (h : d.AllClear) (hr : d.Run c path) : d.Clear (path.map (·.id)) c := by
  induction hr with
  | start hn => exact h _ hn
  | step _ hs ih => exact ih.step hs

/-- a clear traversal visits no node twice on a path -/
theorem AllClear.nodup (h : d.AllClear) (hr : d.Run c path) : ((c :: path).map (·.id)).Nodup := by
  induction hr with
  | start hn => simp
  | step hr hs ih => exact List.nodup_cons.2 ⟨(h.clear (hr.step hs)).notMem, ih⟩

/-- In a sound document, edges lead to nodes; children of loops are nodes only by assumption. -/
theorem Sound.mem_ids_of_run (h : d.Sound)
    (hchildren : ∀ n, d.Reaches n → n.kind = .loop → ∀ child ∈ n.children, child ∈ d.ids) (hr : d.Run c path) :
    c.id ∈ d.ids := by
  cases hr with
  | start hn => exact List.mem_map_of_mem (List.mem_filter.1 hn).1
  | step hr hs =>
    cases hs with
    | next hn hc hf ht => exact h.target?_mem ht
    | branch hn hc outcome ht => exact h.target?_mem ht
    | child hn hl hc => exact hchildren _ ⟨_, _, hr, hn⟩ hl _ hc

/-- when all paths come to nodes, and to none twice, the traversal is clear -/
theorem clear_of_runs (hmem : ∀ c path, d.Run c path → c.id ∈ d.ids)
    (hnodup : ∀ c path, d.Run c path → ((c :: path).map (·.id)).Nodup) (hr : d.Run c path) :
    d.Clear (path.map (·.id)) c := by
  generalize hpath : path.map (·.id) = ids
  generalize hid : c.id = id
  induction ids, id using d.path_induction generalizing c path with
  | enter ids id ih =>
    subst hpath hid
    obtain ⟨n, hn⟩ := Option.isSome_iff_exists.1 (node?_isSome.2 (hmem c path hr))
    have hp : c.id ∉ path.map (·.id) := (List.nodup_cons.1 (hnodup c path hr)).1
    refine .enter hn hp fun c' hc' => ?_
    exact ih n hn hp c'.id (hr.step ((mem_steps hn).1 hc')) rfl rfl

/-! ## The nodes of a traversal -/

/-- the depth-first order has only nodes that some path leads to -/
theorem reaches_of_mem_tour (hr : d.Run c path) (h : n ∈ d.tour (path.map (·.id)) c) : d.Reaches n := by
  generalize hpath : path.map (·.id) = ids at h
  generalize hid : c.id = id
  induction ids, id using d.path_induction generalizing c path with
  | enter ids id ih =>
    subst hpath hid
    rw [tour] at h
    split at h
    · cases h
    · rename_i m hm
      split at h
      · cases h
      · rename_i hp
        rcases List.mem_cons.1 h with rfl | h
        · exact ⟨c, path, hr, hm⟩
        · obtain ⟨c', hc', h⟩ := List.mem_flatMap.1 h
          exact ih m hm hp c'.id (hr.step ((mem_steps hm).1 hc')) rfl h rfl

/-- what is entered from a visit on is entered from the start on -/
theorem AllClear.tour_subset (h : d.AllClear) (hr : d.Run c path) : d.tour (path.map (·.id)) c ⊆ d.traversal := by
  induction hr with
  | start hn => exact fun m hm => List.mem_flatMap.2 ⟨_, hn, hm⟩
  | @step c c' path hr hs ih =>
    obtain ⟨hn, hp, -⟩ := h.clear hr
    rw [tour_enter hn hp] at ih
    intro m hm
    exact ih (List.mem_cons_of_mem _ (List.mem_flatMap.2 ⟨c', (mem_steps hn).2 hs, hm⟩))

/-- **Depth first.** The depth-first order of a clear traversal has exactly the nodes that some path leads to. -/
theorem AllClear.mem_traversal (h : d.AllClear) : n ∈ d.traversal ↔ d.Reaches n := by
  constructor
  · intro hn
    obtain ⟨m, hm, hn⟩ := List.mem_flatMap.1 hn
    exact reaches_of_mem_tour (.start hm) hn
  · rintro ⟨c, path, hr, hn⟩
    have hhead := tour_enter hn (h.clear hr).notMem
    exact h.tour_subset hr (hhead ▸ List.mem_cons_self)

end Document

end Flowchart
