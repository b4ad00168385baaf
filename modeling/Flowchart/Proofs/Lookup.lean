/-
What a graph answers, and which document has none.

A document can be looked through from its first entry to its last. Such a scan finds the first node whose id stood
before, then the first edge with an end that is no node, and without these it answers every question about nodes and
edges. The graph of a document is built in two passes that each stop at their first fault, and it answers from its
indexes. Here both give the same faults and the same answers.

- `foldlM_addNode_eq_error`, `foldlM_addEdge_eq_error`: where each of the two passes stops.
- `answers_ofDocument`: a graph answers as a scan of its document does (`Answers`).
- `ofDocument_scan`: the faults of the scan are those of the graph, and without faults there is a graph that answers.
-/
import Flowchart.Proofs.Index
import Flowchart.Proofs.Outcome

namespace Flowchart

namespace Document

/-- the id of the first node whose id another node has before it -/
def Repeats (d : Document) (id : String) : Prop :=
  ∃ before n after, d.nodes = before ++ n :: after ∧ n.id = id ∧ (before.map (·.id)).Nodup ∧ id ∈ before.map (·.id)

/-- the first edge with an end that is no node, and that end; its source counts before its target -/
def Dangles (d : Document) (source target missing : String) : Prop :=
  ∃ before e after, d.edges = before ++ e :: after ∧ (e.source = source ∧ e.target = target) ∧
    (∀ x ∈ before, x.source ∈ d.ids ∧ x.target ∈ d.ids) ∧
    (source ∉ d.ids ∧ missing = source ∨ source ∈ d.ids ∧ target ∉ d.ids ∧ missing = target)

end Document

namespace Graph

/-! ## Faults -/

theorem addNode_eq_error {index : Std.TreeMap String Node} {n : Node} {e : GraphError} :
    addNode index n = .error e ↔ n.id ∈ index ∧ e = .duplicateNode n.id := by
  unfold addNode
  by_cases h : n.id ∈ index
  · simp only [Std.TreeMap.contains_iff_mem, h, if_true, Except.error.injEq, true_and]
    exact eq_comm
  · simp [h]

/-- the first pass stops at the first node whose id it has seen -/
theorem foldlM_addNode_eq_error {nodes : List Node} {e : GraphError} :
    nodes.foldlM addNode ∅ = .error e ↔
      ∃ before n after, nodes = before ++ n :: after ∧ (before.map (·.id)).Nodup ∧ n.id ∈ before.map (·.id) ∧
        e = .duplicateNode n.id := by
  rw [foldlM_eq_error]
  constructor
  · rintro ⟨before, n, after, index, hnodes, hindex, hn⟩
    obtain ⟨hmem, rfl⟩ := addNode_eq_error.1 hn
    have hnodup := ((foldlM_addNode before ∅).1 ⟨index, hindex⟩).1
    exact ⟨before, n, after, hnodes, hnodup, (mem_foldlM_addNode hindex n.id).1 hmem, rfl⟩
  · rintro ⟨before, n, after, hnodes, hnodup, hmem, rfl⟩
    obtain ⟨index, hindex⟩ := (foldlM_addNode before ∅).2 ⟨hnodup, by simp⟩
    exact ⟨before, n, after, index, hnodes, hindex, addNode_eq_error.2 ⟨(mem_foldlM_addNode hindex n.id).2 hmem, rfl⟩⟩

theorem addEdge_eq_error {index : Std.TreeMap String Node} {outgoing : Std.TreeMap String (List Edge)} {x : Edge}
    {e : GraphError} :
    addEdge index outgoing x = .error e ↔ ∃ missing, e = .danglingEdge x.source x.target missing ∧
      (x.source ∉ index ∧ missing = x.source ∨ x.source ∈ index ∧ x.target ∉ index ∧ missing = x.target) := by
  unfold addEdge
  by_cases hs : x.source ∈ index
  · by_cases ht : x.target ∈ index
    · simp [hs, ht]
    · simp only [Std.TreeMap.contains_iff_mem, hs, ht, not_true_eq_false, not_false_eq_true, if_false, if_true,
        Except.error.injEq, false_and, true_and, false_or, exists_eq_right]
      exact eq_comm
  · simp only [Std.TreeMap.contains_iff_mem, hs, not_false_eq_true, if_true, Except.error.injEq, false_and, true_and,
      or_false, exists_eq_right]
    exact eq_comm

/-- the second pass stops at the first edge with an end that is no node -/
theorem foldlM_addEdge_eq_error {index : Std.TreeMap String Node} {edges : List Edge} {e : GraphError} :
    edges.foldlM (addEdge index) ∅ = .error e ↔
      ∃ before x after missing, edges = before ++ x :: after ∧ e = .danglingEdge x.source x.target missing ∧
        (∀ y ∈ before, y.source ∈ index ∧ y.target ∈ index) ∧
        (x.source ∉ index ∧ missing = x.source ∨ x.source ∈ index ∧ x.target ∉ index ∧ missing = x.target) := by
  rw [foldlM_eq_error]
  constructor
  · rintro ⟨before, x, after, outgoing, hedges, houtgoing, hx⟩
    obtain ⟨missing, rfl, hmissing⟩ := addEdge_eq_error.1 hx
    exact ⟨before, x, after, missing, hedges, rfl, (foldlM_addEdge index before ∅).1 ⟨outgoing, houtgoing⟩, hmissing⟩
  · rintro ⟨before, x, after, missing, hedges, rfl, hbefore, hmissing⟩
    obtain ⟨outgoing, houtgoing⟩ := (foldlM_addEdge index before ∅).2 hbefore
    exact ⟨before, x, after, outgoing, hedges, houtgoing, addEdge_eq_error.2 ⟨missing, rfl, hmissing⟩⟩

/-- a graph fails to be built in one of the two passes -/
theorem ofDocument_eq_error {d : Document} {e : GraphError} :
    ofDocument d = .error e ↔ d.nodes.foldlM addNode ∅ = .error e ∨
      ∃ index, d.nodes.foldlM addNode ∅ = .ok index ∧ d.edges.foldlM (addEdge index) ∅ = .error e := by
  unfold ofDocument
  simp only [bind_eq_error]
  simp [pure, Except.pure]

theorem ofDocument_eq_duplicateNode {d : Document} {id : String} :
    ofDocument d = .error (.duplicateNode id) ↔ d.Repeats id := by
  rw [ofDocument_eq_error, foldlM_addNode_eq_error]
  constructor
  · rintro (⟨before, n, after, hnodes, hnodup, hmem, heq⟩ | ⟨index, -, hedges⟩)
    · cases heq
      exact ⟨before, n, after, hnodes, rfl, hnodup, hmem⟩
    · obtain ⟨_, _, _, _, _, heq, _⟩ := foldlM_addEdge_eq_error.1 hedges
      cases heq
  · rintro ⟨before, n, after, hnodes, rfl, hnodup, hmem⟩
    exact Or.inl ⟨before, n, after, hnodes, hnodup, hmem, rfl⟩

theorem ofDocument_eq_danglingEdge {d : Document} {source target missing : String} :
    ofDocument d = .error (.danglingEdge source target missing) ↔
      d.ids.Nodup ∧ d.Dangles source target missing := by
  rw [ofDocument_eq_error]
  constructor
  · rintro (hnodes | ⟨index, hindex, hedges⟩)
    · obtain ⟨_, _, _, _, _, _, heq⟩ := foldlM_addNode_eq_error.1 hnodes
      cases heq
    · have hids : ∀ id, id ∈ index ↔ id ∈ d.ids := mem_foldlM_addNode hindex
      obtain ⟨before, x, after, _, hsplit, heq, hbefore, hmissing⟩ := foldlM_addEdge_eq_error.1 hedges
      cases heq
      simp only [hids] at hbefore hmissing
      exact ⟨((foldlM_addNode d.nodes ∅).1 ⟨index, hindex⟩).1, before, x, after, hsplit, ⟨rfl, rfl⟩, hbefore, hmissing⟩
  · rintro ⟨hnodup, before, x, after, hsplit, ⟨rfl, rfl⟩, hbefore, hmissing⟩
    obtain ⟨index, hindex⟩ := (foldlM_addNode d.nodes ∅).2 ⟨hnodup, by simp⟩
    have hids : ∀ id, id ∈ index ↔ id ∈ d.ids := mem_foldlM_addNode hindex
    refine Or.inr ⟨index, hindex, foldlM_addEdge_eq_error.2 ⟨before, x, after, missing, hsplit, rfl, ?_, ?_⟩⟩
    · simpa only [hids] using hbefore
    · simpa only [hids] using hmissing

end Graph

namespace Document

/-- ids that are not unique have a first that repeats -/
theorem exists_repeats {d : Document} : (∃ id, d.Repeats id) ↔ ¬d.ids.Nodup := by
  constructor
  · rintro ⟨id, before, n, after, hnodes, rfl, -, hmem⟩ hnodup
    rw [ids, hnodes, List.map_append, List.map_cons, List.nodup_append] at hnodup
    exact hnodup.2.2 _ hmem _ List.mem_cons_self rfl
  · intro hnodup
    have hfail : ¬∃ index, d.nodes.foldlM Graph.addNode ∅ = .ok index := fun h =>
      hnodup ((Graph.foldlM_addNode d.nodes ∅).1 h).1
    cases hfold : d.nodes.foldlM Graph.addNode ∅ with
    | ok index => exact absurd ⟨index, hfold⟩ hfail
    | error e =>
      obtain ⟨before, n, after, hnodes, hbefore, hmem, -⟩ := Graph.foldlM_addNode_eq_error.1 hfold
      exact ⟨n.id, before, n, after, hnodes, rfl, hbefore, hmem⟩

/-- edges that do not all run between nodes have a first that does not -/
theorem exists_dangles {d : Document} :
    (∃ source target missing, d.Dangles source target missing) ↔
      ∃ e ∈ d.edges, ¬(e.source ∈ d.ids ∧ e.target ∈ d.ids) := by
  constructor
  · rintro ⟨source, target, missing, before, e, after, hedges, ⟨rfl, rfl⟩, -, hmissing⟩
    refine ⟨e, by simp [hedges], fun hends => ?_⟩
    rcases hmissing with ⟨hsource, -⟩ | ⟨-, htarget, -⟩
    · exact hsource hends.1
    · exact htarget hends.2
  · rintro ⟨e, he, hends⟩
    -- the first such edge divides the edges into those before it and those after it
    obtain ⟨x, hx⟩ : ∃ x, d.edges.find? (fun e => ¬(e.source ∈ d.ids ∧ e.target ∈ d.ids)) = some x :=
      Option.isSome_iff_exists.1 (List.find?_isSome.2 ⟨e, he, decide_eq_true hends⟩)
    obtain ⟨hx, before, after, hedges, hbefore⟩ := List.find?_eq_some_iff_append.1 hx
    have hbefore' : ∀ y ∈ before, y.source ∈ d.ids ∧ y.target ∈ d.ids := by
      intro y hy
      simpa using hbefore y hy
    by_cases hsource : x.source ∈ d.ids
    · have htarget : x.target ∉ d.ids := by simpa [hsource] using hx
      exact ⟨x.source, x.target, x.target, before, x, after, hedges, ⟨rfl, rfl⟩, hbefore',
        Or.inr ⟨hsource, htarget, rfl⟩⟩
    · exact ⟨x.source, x.target, x.source, before, x, after, hedges, ⟨rfl, rfl⟩, hbefore', Or.inl ⟨hsource, rfl⟩⟩

/-- in a sound document the first node with an id is the only one -/
theorem Sound.node?_eq_some {d : Document} (h : d.Sound) {id : String} {n : Node} :
    d.node? id = some n ↔ d.nodes.filter (fun m => m.id = id) = [n] := by
  constructor
  · intro hfind
    have hn : n ∈ d.nodes := List.mem_of_find?_eq_some hfind
    have hall : ∀ m ∈ d.nodes.filter (fun m => m.id = id), m = n := by
      intro m hm
      obtain ⟨hm, hid⟩ := List.mem_filter.1 hm
      have hsame : m.id = n.id := (of_decide_eq_true hid).trans (node?_id hfind).symm
      exact List.inj_on_of_nodup_map h.ids_nodup hm hn hsame
    have hnodup : (d.nodes.filter fun m => m.id = id).Nodup := (List.Nodup.of_map _ h.ids_nodup).filter _
    have hmem : n ∈ d.nodes.filter (fun m => m.id = id) :=
      List.mem_filter.2 ⟨hn, decide_eq_true (node?_id hfind)⟩
    have hrepeat := List.eq_replicate_of_mem hall
    rw [hrepeat, List.nodup_replicate] at hnodup
    have hpos := List.length_pos_of_mem hmem
    have hone : (d.nodes.filter fun m => m.id = id).length = 1 := by omega
    rw [hrepeat, hone]
    rfl
  · intro hfilter
    rw [node?, ← List.head?_filter, hfilter]
    rfl

end Document

namespace Graph

/-! ## Answers -/

/-- The graph answers every question as a scan of the document does. -/
structure Answers (g : Graph) (d : Document) : Prop where
  nodes : g.nodes = d.nodes
  /-- the one node with the id -/
  node : ∀ id requiredBy n, g.node id requiredBy = .ok n ↔ d.nodes.filter (fun m => m.id = id) = [n]
  /-- no node has the id -/
  missing : ∀ id requiredBy e, g.node id requiredBy = .error e ↔ id ∉ d.ids ∧ e = .missingNode id requiredBy
  edgesFrom : ∀ id, g.edgesFrom id = d.edges.filter fun e => e.source = id
  next? : ∀ id, g.next? id = d.edges.find? fun e => e.source = id ∧ e.condition = none
  branch? : ∀ id outcome, g.branch? id outcome = d.edges.find? fun e => e.source = id ∧ e.condition = some outcome
  /-- the edges that are found lead to nodes -/
  target : ∀ id e, e ∈ g.edgesFrom id ∨ g.next? id = some e ∨ (∃ outcome, g.branch? id outcome = some e) →
    ∀ requiredBy, ∃ n, g.node e.target requiredBy = .ok n
  start : ∀ n, g.start = .ok n ↔ d.starts = [n]
  /-- there is no start, or more than one -/
  starts : ∀ e, g.start = .error e ↔ d.starts.length ≠ 1 ∧ e = .missingStart d.starts.length

theorem node_eq_ok {g : Graph} {id requiredBy : String} {n : Node} :
    g.node id requiredBy = .ok n ↔ g.node? id = some n := by
  unfold node
  cases g.node? id <;> simp

theorem node_eq_error {g : Graph} {id requiredBy : String} {e : GraphError} :
    g.node id requiredBy = .error e ↔ g.node? id = none ∧ e = .missingNode id requiredBy := by
  unfold node
  cases g.node? id <;> simp [eq_comm]

theorem Indexes.start_eq_error {g : Graph} {d : Document} (h : g.Indexes d) {e : GraphError} :
    g.start = .error e ↔ d.starts.length ≠ 1 ∧ e = .missingStart d.starts.length := by
  unfold start
  rw [h.nodes]
  split
  · rename_i n hstarts
    have hone : d.starts.length = 1 := congrArg List.length hstarts
    simp [hone]
  · rename_i hstarts
    have hne : d.starts.length ≠ 1 := fun hone => by
      obtain ⟨n, hn⟩ := List.length_eq_one_iff.1 hone
      exact hstarts n hn
    rw [Except.error.injEq]
    exact ⟨fun he => ⟨hne, he.symm⟩, fun he => he.2.symm⟩

/-- **A graph answers as a scan of its document does.** -/
theorem answers_ofDocument {d : Document} {g : Graph} (h : ofDocument d = .ok g) : g.Answers d := by
  have hindexes := indexes_ofDocument h
  have hsound := (ofDocument_isOk d).1 ⟨g, h⟩
  have hnext : ∀ id, g.next? id = d.edges.find? fun e => e.source = id ∧ e.condition = none := by
    intro id
    rw [next?, plainEdgesFrom, hindexes.edgesFrom, List.filter_filter, List.head?_filter]
    congr 1
    funext e
    cases e.condition <;> simp
  have hbranch : ∀ id outcome,
      g.branch? id outcome = d.edges.find? fun e => e.source = id ∧ e.condition = some outcome := by
    intro id outcome
    rw [branch?, hindexes.edgesFrom, List.find?_filter]
    simp
  have htarget : ∀ e ∈ d.edges, ∀ requiredBy, ∃ n, g.node e.target requiredBy = .ok n := by
    intro e he requiredBy
    obtain ⟨n, hn⟩ := Option.isSome_iff_exists.1 (Document.node?_isSome.2 (hsound.edges e he).2)
    exact ⟨n, node_eq_ok.2 ((hindexes.node? e.target).trans hn)⟩
  constructor
  · exact hindexes.nodes
  · intro id requiredBy n
    rw [node_eq_ok, hindexes.node?, hsound.node?_eq_some]
  · intro id requiredBy e
    rw [node_eq_error, hindexes.node?, ← Option.not_isSome_iff_eq_none, Document.node?_isSome]
  · exact hindexes.edgesFrom
  · exact hnext
  · exact hbranch
  · rintro id e (he | he | ⟨outcome, he⟩)
    · rw [hindexes.edgesFrom] at he
      exact htarget e (List.mem_of_mem_filter he)
    · rw [hnext] at he
      exact htarget e (List.mem_of_find?_eq_some he)
    · rw [hbranch] at he
      exact htarget e (List.mem_of_find?_eq_some he)
  · intro n
    exact hindexes.start_eq_ok
  · intro e
    exact hindexes.start_eq_error

/-- **The graph of a document and a scan of the document.** There is no graph because of a repeated id exactly when
ids are not unique, and the error names the first node that repeats one. Otherwise there is none because of an edge
exactly when an edge has an end that is no node, and the error names the first such edge and that end. Otherwise there
is a graph, and it answers every question as the scan does. -/
theorem ofDocument_scan (d : Document) :
    ((∃ id, ofDocument d = .error (.duplicateNode id)) ↔ ¬d.ids.Nodup) ∧
      (∀ id, ofDocument d = .error (.duplicateNode id) ↔ d.Repeats id) ∧
      ((∃ source target missing, ofDocument d = .error (.danglingEdge source target missing)) ↔
        d.ids.Nodup ∧ ∃ e ∈ d.edges, ¬(e.source ∈ d.ids ∧ e.target ∈ d.ids)) ∧
      (∀ source target missing, ofDocument d = .error (.danglingEdge source target missing) ↔
        d.ids.Nodup ∧ d.Dangles source target missing) ∧
      ((∃ g, ofDocument d = .ok g ∧ g.Answers d) ↔ d.Sound) := by
  refine ⟨?_, fun id => ofDocument_eq_duplicateNode, ?_, fun source target missing => ofDocument_eq_danglingEdge, ?_⟩
  · simp only [ofDocument_eq_duplicateNode, Document.exists_repeats]
  · simp only [ofDocument_eq_danglingEdge, exists_and_left, Document.exists_dangles]
  · rw [← ofDocument_isOk]
    constructor
    · rintro ⟨g, h, -⟩
      exact ⟨g, h⟩
    · rintro ⟨g, h⟩
      exact ⟨g, h, answers_ofDocument h⟩

end Graph

end Flowchart
