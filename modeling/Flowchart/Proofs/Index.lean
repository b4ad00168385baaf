/-
The index of a graph and the document behind it.

A document can be read without any index: a node by the first entry with its id, an edge by the first entry with its
source and condition. `ofDocument` builds two tree maps by folding over the document. Here the two readings are the
same.

- `ofDocument_isOk`: a document has a graph exactly when its ids are unique and its edges run between nodes (`Sound`).
- `indexes_ofDocument`: the graph of a document answers every look-up as a scan of the document does (`Indexes`).
-/
import Flowchart.Build
import Mathlib.Tactic

namespace Flowchart

namespace Document

/-- the first node with an id -/
def node? (d : Document) (id : String) : Option Node := d.nodes.find? fun n => n.id = id

/-- where the first edge leads that leaves a node on a condition -/
def target? (d : Document) (id : String) (condition : Option Bool) : Option String :=
  (d.edges.find? fun e => e.source = id ∧ e.condition = condition).map (·.target)

/-- the ids of the nodes, in the order of the document -/
def ids (d : Document) : List String := d.nodes.map (·.id)

/-- the nodes with which a flow starts -/
def starts (d : Document) : List Node := d.nodes.filter fun n => n.kind = .start

/-- every node has an id of its own, and every edge runs between nodes -/
structure Sound (d : Document) : Prop where
  ids_nodup : d.ids.Nodup
  edges : ∀ e ∈ d.edges, e.source ∈ d.ids ∧ e.target ∈ d.ids

theorem node?_id {d : Document} {id : String} {n : Node} (h : d.node? id = some n) : n.id = id := by
  simpa using List.find?_some h

theorem node?_isSome {d : Document} {id : String} : (d.node? id).isSome ↔ id ∈ d.ids := by
  simp [node?, ids]

theorem Sound.node?_of_mem {d : Document} (h : d.Sound) {n : Node} (hn : n ∈ d.nodes) : d.node? n.id = some n := by
  have hnd := h.ids_nodup
  unfold ids at hnd
  unfold node?
  cases hf : d.nodes.find? (fun m => m.id = n.id) with
  | none =>
    rw [List.find?_eq_none] at hf
    exact absurd (by simp) (hf n hn)
  | some m =>
    have hid : m.id = n.id := by simpa using List.find?_some hf
    rw [List.inj_on_of_nodup_map hnd (List.mem_of_find?_eq_some hf) hn hid]

/-- an edge of a sound document leads to a node -/
theorem Sound.target?_mem {d : Document} (h : d.Sound) {id target : String} {condition : Option Bool}
    (ht : d.target? id condition = some target) : target ∈ d.ids := by
  obtain ⟨e, he, rfl⟩ := Option.map_eq_some_iff.1 ht
  exact (h.edges e (List.mem_of_find?_eq_some he)).2

end Document

namespace Graph

/-! ## The fold over the nodes -/

theorem addNode_eq_ok {index index' : Std.TreeMap String Node} {n : Node} :
    addNode index n = .ok index' ↔ n.id ∉ index ∧ index' = index.insert n.id n := by
  unfold addNode
  by_cases h : n.id ∈ index
  · simp [h]
  · simp only [Std.TreeMap.contains_iff_mem, h, if_false, Except.ok.injEq, not_false_eq_true, true_and]
    exact eq_comm

/-- The fold accepts nodes whose ids are new and unique. Then a look-up finds the node that is listed with the id, or
what the index held before. -/
theorem foldlM_addNode (nodes : List Node) (index : Std.TreeMap String Node) :
    (∃ index', nodes.foldlM addNode index = .ok index') ↔
      (nodes.map (·.id)).Nodup ∧ ∀ n ∈ nodes, n.id ∉ index := by
  induction nodes generalizing index with
  | nil => simp [pure, Except.pure]
  | cons n rest ih =>
    rw [List.foldlM_cons]
    by_cases hn : n.id ∈ index
    · have herr : addNode index n = .error (.duplicateNode n.id) := by simp [addNode, hn]
      rw [herr]
      constructor
      · rintro ⟨index', h⟩
        cases h
      · rintro ⟨-, h⟩
        exact absurd hn (h n List.mem_cons_self)
    · rw [addNode_eq_ok.2 ⟨hn, rfl⟩]
      show (∃ index', rest.foldlM addNode (index.insert n.id n) = .ok index') ↔ _
      rw [ih]
      simp only [Std.TreeMap.mem_insert, List.map_cons, List.nodup_cons, List.mem_map, List.forall_mem_cons]
      grind

theorem getElem?_foldlM_addNode {nodes : List Node} {index index' : Std.TreeMap String Node}
    (h : nodes.foldlM addNode index = .ok index') (id : String) :
    index'[id]? = (index[id]?).or (nodes.find? fun n => n.id = id) := by
  induction nodes generalizing index with
  | nil =>
    cases h
    simp
  | cons n rest ih =>
    rw [List.foldlM_cons] at h
    cases hn : addNode index n with
    | error e => rw [hn] at h; cases h
    | ok index1 =>
      rw [hn] at h
      obtain ⟨hnew, rfl⟩ := addNode_eq_ok.1 hn
      rw [ih h, Std.TreeMap.getElem?_insert, List.find?_cons]
      by_cases hid : n.id = id
      · subst hid
        simp [Std.TreeMap.getElem?_eq_none hnew]
      · simp [hid]

/-! ## The fold over the edges -/

theorem addEdge_eq_ok {index : Std.TreeMap String Node} {outgoing outgoing' : Std.TreeMap String (List Edge)}
    {e : Edge} :
    addEdge index outgoing e = .ok outgoing' ↔
      (e.source ∈ index ∧ e.target ∈ index) ∧
        outgoing' = outgoing.insert e.source (outgoing.getD e.source [] ++ [e]) := by
  unfold addEdge
  by_cases hs : e.source ∈ index
  · by_cases ht : e.target ∈ index
    · simp only [Std.TreeMap.contains_iff_mem, hs, ht, not_true_eq_false, if_false, Except.ok.injEq, and_self, true_and]
      exact eq_comm
    · simp [hs, ht]
  · simp [hs]

theorem foldlM_addEdge (index : Std.TreeMap String Node) (edges : List Edge)
    (outgoing : Std.TreeMap String (List Edge)) :
    (∃ outgoing', edges.foldlM (addEdge index) outgoing = .ok outgoing') ↔
      ∀ e ∈ edges, e.source ∈ index ∧ e.target ∈ index := by
  induction edges generalizing outgoing with
  | nil => simp [pure, Except.pure]
  | cons e rest ih =>
    rw [List.foldlM_cons, List.forall_mem_cons]
    by_cases he : e.source ∈ index ∧ e.target ∈ index
    · rw [addEdge_eq_ok.2 ⟨he, rfl⟩]
      exact (ih _).trans (by simp [he])
    · cases hadd : addEdge index outgoing e with
      | error cause =>
        constructor
        · rintro ⟨outgoing', h⟩
          cases h
        · rintro ⟨h, -⟩
          exact absurd h he
      | ok outgoing1 => exact absurd (addEdge_eq_ok.1 hadd).1 he

/-- the fold appends the edges of each node in the order of the document -/
theorem getD_foldlM_addEdge {index : Std.TreeMap String Node} {edges : List Edge}
    {outgoing outgoing' : Std.TreeMap String (List Edge)}
    (h : edges.foldlM (addEdge index) outgoing = .ok outgoing') (id : String) :
    outgoing'.getD id [] = outgoing.getD id [] ++ edges.filter fun e => e.source = id := by
  induction edges generalizing outgoing with
  | nil =>
    cases h
    simp
  | cons e rest ih =>
    rw [List.foldlM_cons] at h
    cases he : addEdge index outgoing e with
    | error cause => rw [he] at h; cases h
    | ok outgoing1 =>
      rw [he] at h
      obtain ⟨-, rfl⟩ := addEdge_eq_ok.1 he
      rw [ih h, Std.TreeMap.getD_insert, List.filter_cons]
      by_cases hid : e.source = id
      · subst hid
        simp
      · simp [hid]

/-! ## The graph of a document -/

/-- the graph answers look-ups as a scan of the document does -/
structure Indexes (g : Graph) (d : Document) : Prop where
  nodes : g.nodes = d.nodes
  node? : ∀ id, g.node? id = d.node? id
  edgesFrom : ∀ id, g.edgesFrom id = d.edges.filter fun e => e.source = id

theorem ofDocument_eq_ok {d : Document} {g : Graph} (h : ofDocument d = .ok g) :
    ∃ index outgoing, d.nodes.foldlM addNode ∅ = .ok index ∧ d.edges.foldlM (addEdge index) ∅ = .ok outgoing ∧
      g = ⟨d.nodes, index, outgoing⟩ := by
  unfold ofDocument at h
  cases hi : d.nodes.foldlM addNode ∅ with
  | error e => rw [hi] at h; cases h
  | ok index =>
    rw [hi] at h
    cases ho : d.edges.foldlM (addEdge index) ∅ with
    | error e =>
      simp only [bind, Except.bind, ho] at h
      cases h
    | ok outgoing =>
      simp only [bind, Except.bind, ho, pure, Except.pure, Except.ok.injEq] at h
      exact ⟨index, outgoing, rfl, ho, h.symm⟩

theorem mem_foldlM_addNode {nodes : List Node} {index : Std.TreeMap String Node}
    (h : nodes.foldlM addNode ∅ = .ok index) (id : String) : id ∈ index ↔ id ∈ nodes.map (·.id) := by
  rw [Std.TreeMap.mem_iff_isSome_getElem?, getElem?_foldlM_addNode h]
  simp

/-- **The index is the document.** Nodes are found by id and edges by source, in the order of the document. -/
theorem indexes_ofDocument {d : Document} {g : Graph} (h : ofDocument d = .ok g) : g.Indexes d := by
  obtain ⟨index, outgoing, hi, ho, rfl⟩ := ofDocument_eq_ok h
  refine ⟨rfl, fun id => ?_, fun id => ?_⟩
  · show index[id]? = _
    rw [getElem?_foldlM_addNode hi]
    simp [Document.node?]
  · show outgoing.getD id [] = _
    rw [getD_foldlM_addEdge ho]
    simp

/-- **Which documents have a graph.** -/
theorem ofDocument_isOk (d : Document) : (∃ g, ofDocument d = .ok g) ↔ d.Sound := by
  constructor
  · rintro ⟨g, h⟩
    obtain ⟨index, outgoing, hi, ho, rfl⟩ := ofDocument_eq_ok h
    refine ⟨((foldlM_addNode _ _).1 ⟨index, hi⟩).1, fun e he => ?_⟩
    have hmem := (foldlM_addEdge _ _ _).1 ⟨outgoing, ho⟩ e he
    rwa [mem_foldlM_addNode hi, mem_foldlM_addNode hi] at hmem
  · intro h
    obtain ⟨index, hi⟩ := (foldlM_addNode d.nodes ∅).2 ⟨h.ids_nodup, fun n _ => by simp⟩
    obtain ⟨outgoing, ho⟩ := (foldlM_addEdge index d.edges ∅).2 fun e he => by
      rw [mem_foldlM_addNode hi, mem_foldlM_addNode hi]
      exact h.edges e he
    refine ⟨⟨d.nodes, index, outgoing⟩, ?_⟩
    unfold ofDocument
    simp only [hi, ho, bind, Except.bind, pure, Except.pure]

namespace Indexes

variable {g : Graph} {d : Document}

theorem next? (h : g.Indexes d) (id : String) : (g.next? id).map (·.target) = d.target? id none := by
  unfold Graph.next? plainEdgesFrom Document.target?
  rw [h.edgesFrom, List.filter_filter, List.head?_filter]
  congr 2
  funext e
  cases e.condition <;> simp

theorem branch? (h : g.Indexes d) (id : String) (outcome : Bool) :
    (g.branch? id outcome).map (·.target) = d.target? id (some outcome) := by
  unfold Graph.branch? Document.target?
  rw [h.edgesFrom, List.find?_filter]
  simp

theorem start_eq_ok (h : g.Indexes d) {n : Node} : g.start = .ok n ↔ d.starts = [n] := by
  unfold Graph.start Document.starts
  rw [h.nodes]
  split
  · rename_i m hm
    simp [hm]
  · rename_i hne
    simpa using hne n

end Indexes

end Graph

end Flowchart
