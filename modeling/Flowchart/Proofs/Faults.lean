/-
Graph errors are true.

A graph error says something about the document: that a node is on its own path, that a child of a loop is no node, that
a property is not there. `GraphError.Holds` is what it says, in terms of the document and its traversal, without any
compilation.

- `Node.check_graph_error`: the only graph error in the properties of a node is one that it must have and has not.
- `Document.holds_of_direct`: when the traversal stops with a graph error, a run of the traversal bears it out.
- `build_graph_error`: all graph errors of a compilation hold. Those about ids and edges are for documents that are no
  graph, and only for these.
-/
import Flowchart.Proofs.Lookup
import Flowchart.Proofs.Refinement
import Flowchart.Proofs.Visits
import Mathlib

namespace Flowchart

/-- the properties that a node of a kind must have, each with the other names that may stand for it -/
def NodeKind.required : NodeKind → List (String × List String)
  | .start => []
  | .setVariable => [("key", []), ("value", [])]
  | .conditional => [("expression", [])]
  | .httpCall => [("url", []), ("saveAs", ["saveResponseAsVariableName"])]
  | .loop => [("loopArray", []), ("currentItemName", ["currentItem"])]
  | .finish => [("output", [])]

/-- what a graph error says of a document -/
def GraphError.Holds (d : Document) : GraphError → Prop
  | .missingStart found => found = d.starts.length ∧ found ≠ 1
  -- a loop that is reached lists a child that is no node
  | .missingNode id requiredBy =>
    ∃ n, d.Reaches n ∧ n.id = requiredBy ∧ n.kind = .loop ∧ id ∈ n.children ∧ id ∉ d.ids
  | .danglingEdge source target missing =>
    ∃ e ∈ d.edges, e.source = source ∧ e.target = target ∧ (missing = source ∨ missing = target) ∧ missing ∉ d.ids
  -- the traversal comes to `via` by a path that `id` is on, and steps from there to `id` again
  | .cyclic id via =>
    ∃ c c' path, d.Run c path ∧ c.id = via ∧ id ∈ (c :: path).map (·.id) ∧ d.Step c c' ∧ c'.id = id
  | .duplicateNode id => List.Duplicate id d.ids
  -- a node that is reached has the property, which its kind must have, under none of its names
  | .missingProperty id property =>
    ∃ n others, d.Reaches n ∧ n.id = id ∧ (property, others) ∈ n.kind.required ∧
      ∀ name ∈ property :: others, Json.get? name n.properties = none

/-! ## Properties -/

namespace Node

variable {n : Node} {e : GraphError}

/-- the error says that the node has no property of these names, and calls it by the first -/
def Lacks (n : Node) (name : String) (others : List String) (e : GraphError) : Prop :=
  e = .missingProperty n.id name ∧ n.property? (name :: others) = none

theorem required_eq_error {name : String} {others : List String} (h : n.required name others = .error (.graph e)) :
    n.Lacks name others e := by
  unfold required at h
  split at h
  · cases h
  · rename_i hnone
    cases h
    exact ⟨rfl, hnone⟩

/-- a property that is there and cannot be read is no graph error -/
theorem mapError_refuse_ne {α : Type} {x : Except Unparsable α} {name : String} :
    x.mapError (n.refuse name) ≠ .error (.graph e) := by
  intro h
  obtain ⟨cause, -, hcause⟩ := mapError_eq_error.1 h
  cases hcause

theorem expression_graph_error {name : String} (h : (n.expression name).outcome = .error (.graph e)) :
    n.Lacks name [] e := by
  simp only [expression, parsed, Logged.outcome_bind, Logged.outcome_lift, Logged.outcome_log, ok_bind] at h
  rcases bind_eq_error.1 h with h | ⟨v, -, h⟩
  · exact required_eq_error h
  · exact absurd h mapError_refuse_ne

theorem variableName_graph_error {name : String} {others : List String}
    (h : n.variableName name others = .error (.graph e)) : n.Lacks name others e := by
  unfold variableName at h
  rcases bind_eq_error.1 h with h | ⟨v, -, h⟩
  · exact required_eq_error h
  · split at h <;> cases h

theorem assignment_graph_error (h : n.assignment.outcome = .error (.graph e)) :
    n.Lacks "key" [] e ∨ n.Lacks "value" [] e := by
  simp only [assignment, parsed, Logged.outcome_bind, Logged.outcome_lift, Logged.outcome_log, ok_bind] at h
  rcases bind_eq_error.1 h with h | ⟨key, -, h⟩
  · exact Or.inl (required_eq_error h)
  rcases bind_eq_error.1 h with h | ⟨left, -, h⟩
  · exact absurd h mapError_refuse_ne
  rcases bind_eq_error.1 h with h | ⟨right, -, h⟩
  · exact Or.inr (expression_graph_error h)
  · cases h

theorem loopHead_graph_error (h : n.loopHead.outcome = .error (.graph e)) :
    n.Lacks "loopArray" [] e ∨ n.Lacks "currentItemName" ["currentItem"] e := by
  simp only [loopHead, Logged.outcome_bind, Logged.outcome_lift] at h
  rcases bind_eq_error.1 h with h | ⟨iterable, -, h⟩
  · exact Or.inl (expression_graph_error h)
  rcases bind_eq_error.1 h with h | ⟨item, -, h⟩
  · exact Or.inr (variableName_graph_error h)
  · cases h

theorem method_ne : n.method ≠ .error (.graph e) := by
  unfold method
  repeat' split
  all_goals exact nofun

theorem parameters_ne : n.parameters ≠ .error (.graph e) := by
  unfold parameters
  repeat' split
  all_goals exact nofun

theorem mapM_argument_ne {ps : List (String × Json)} : (ps.mapM n.argument).outcome ≠ .error (.graph e) := by
  induction ps with
  | nil => exact nofun
  | cons p ps ih =>
    intro h
    rw [List.mapM_cons] at h
    simp only [argument, parsed, Logged.outcome_bind, Logged.outcome_log, Logged.outcome_lift, ok_bind] at h
    rcases bind_eq_error.1 h with h | ⟨q, -, h⟩
    · rcases bind_eq_error.1 h with h | ⟨value, -, h⟩
      · exact mapError_refuse_ne h
      · cases h
    · rcases bind_eq_error.1 h with h | ⟨qs, -, h⟩
      · exact ih h
      · cases h

theorem httpCall_graph_error {client : String} (h : (n.httpCall client).outcome = .error (.graph e)) :
    n.Lacks "url" [] e ∨ n.Lacks "saveAs" ["saveResponseAsVariableName"] e := by
  simp only [httpCall, Logged.outcome_bind, Logged.outcome_lift] at h
  rcases bind_eq_error.1 h with h | ⟨url, -, h⟩
  · exact Or.inl (required_eq_error h)
  rcases bind_eq_error.1 h with h | ⟨method, -, h⟩
  · exact absurd h method_ne
  rcases bind_eq_error.1 h with h | ⟨parameters, -, h⟩
  · exact absurd h parameters_ne
  rcases bind_eq_error.1 h with h | ⟨properties, -, h⟩
  · exact absurd h mapM_argument_ne
  rcases bind_eq_error.1 h with h | ⟨name, -, h⟩
  · exact Or.inr (variableName_graph_error h)
  · cases h

/-- **The properties of a node.** A graph error in them is a property that the kind must have and the node has not. -/
theorem check_graph_error {client : String} {r : Option Expression} (h : n.check client r = .error (.graph e)) :
    ∃ name others, (name, others) ∈ n.kind.required ∧ n.Lacks name others e := by
  unfold check at h
  cases hk : n.kind with
  | start =>
    rw [hk] at h
    cases h
  | setVariable =>
    rw [hk] at h
    rcases assignment_graph_error (map_eq_error.1 h) with h | h
    · exact ⟨_, _, by simp [NodeKind.required], h⟩
    · exact ⟨_, _, by simp [NodeKind.required], h⟩
  | conditional =>
    rw [hk] at h
    exact ⟨_, _, by simp [NodeKind.required], expression_graph_error (map_eq_error.1 h)⟩
  | httpCall =>
    rw [hk] at h
    rcases httpCall_graph_error (map_eq_error.1 h) with h | h
    · exact ⟨_, _, by simp [NodeKind.required], h⟩
    · exact ⟨_, _, by simp [NodeKind.required], h⟩
  | loop =>
    rw [hk] at h
    rcases loopHead_graph_error (map_eq_error.1 h) with h | h
    · exact ⟨_, _, by simp [NodeKind.required], h⟩
    · exact ⟨_, _, by simp [NodeKind.required], h⟩
  | finish =>
    rw [hk] at h
    simp only at h
    split at h
    · cases h
    · exact ⟨_, _, by simp [NodeKind.required], expression_graph_error (map_eq_error.1 h)⟩

end Node

/-! ## The traversal -/

theorem stateAfter_eq_error {α : Type} {x : Direct α} {r : Option Expression} {e : Error} :
    stateAfter x r = .error e ↔ x.run r = .error e := map_eq_error

namespace Document

variable {d : Document} {c : Visit} {path : List Visit} {via : String}

/-- In a sound document, edges lead to nodes. So a visit that comes to no node is one to a child of a loop. -/
theorem holds_missingNode (hd : d.Sound) (hr : d.Run c path) (hvia : ∀ c' ∈ path.head?, c'.id = via)
    (hn : d.node? c.id = none) : (GraphError.missingNode c.id via).Holds d := by
  have hc : c.id ∉ d.ids := by
    rw [← node?_isSome, hn]
    exact nofun
  cases hr with
  | start hm => exact absurd (List.mem_map_of_mem (List.mem_filter.1 hm).1) hc
  | @step c' _ path hr hs =>
    cases hs with
    | next hm hcond hfin ht => exact absurd (hd.target?_mem ht) hc
    | branch hm hcond outcome ht => exact absurd (hd.target?_mem ht) hc
    | child hm hl hchild =>
      have hid := hvia _ rfl
      exact ⟨_, ⟨_, _, hr, hm⟩, (node?_id hm).trans hid, hl, hchild, hc⟩

/-- a visit to a node that is on its path closes a cycle -/
theorem holds_cyclic (hr : d.Run c path) (hvia : ∀ c' ∈ path.head?, c'.id = via) (hp : c.id ∈ path.map (·.id)) :
    (GraphError.cyclic c.id via).Holds d := by
  cases hr with
  | start hm => cases hp
  | step hr hs => exact ⟨_, c, _, hr, hvia _ rfl, hp, hs, rfl⟩

theorem holds_lacks {n : Node} {name : String} {others : List String} {e : GraphError} (hn : d.Reaches n)
    (hname : (name, others) ∈ n.kind.required) (h : n.Lacks name others e) : e.Holds d := by
  obtain ⟨rfl, hnone⟩ := h
  exact ⟨n, others, hn, rfl, hname, List.findSome?_eq_none_iff.1 hnone⟩

/-- **Errors of the traversal.** A graph error with which compilation stops, from some visit of a run on, holds. -/
theorem holds_of_direct (hd : d.Sound) {client : String} {atEnd : Expression → List Statement}
    {r : Option Expression} {e : GraphError} (hr : d.Run c path) (hvia : ∀ c' ∈ path.head?, c'.id = via)
    (h : (d.direct client atEnd (path.map (·.id)) c.id via c.k).run r = .error (.graph e)) : e.Holds d := by
  generalize hpath : path.map (·.id) = ids at h
  generalize hid : c.id = id at h
  induction ids, id using d.path_induction generalizing c path via r with
  | enter ids id ih =>
    subst hpath hid
    cases hn : d.node? c.id with
    | none =>
      rw [direct_missing hn] at h
      cases h
      exact holds_missingNode hd hr hvia hn
    | some n =>
      by_cases hp : c.id ∈ path.map (·.id)
      · rw [direct_repeated hn hp] at h
        cases h
        exact holds_cyclic hr hvia hp
      · -- the node itself, or one of the visits from it, in the order of the steps
        rw [direct_enter hn hp, ← stateAfter_eq_error, stateAfter_direct] at h
        rcases bind_eq_error.1 h with h | ⟨r1, -, h⟩
        · obtain ⟨name, others, hname, hlacks⟩ := Node.check_graph_error h
          exact holds_lacks ⟨c, path, hr, hn⟩ hname hlacks
        · obtain ⟨c', hc', r2, h⟩ := exists_error_of_foldlM h
          have hrun := hr.step ((mem_steps hn).1 hc')
          exact ih n hn hp c'.id hrun (by simp) rfl rfl (stateAfter_eq_error.1 h)

end Document

/-! ## The graph -/

namespace Graph

variable {e : GraphError}

/-- a document that has no graph: an id is used twice, or an edge leads from or to no node -/
theorem holds_of_ofDocument {d : Document} (h : ofDocument d = .error e) : e.Holds d := by
  rcases ofDocument_eq_error.1 h with h | ⟨index, hindex, h⟩
  · obtain ⟨before, n, after, hnodes, -, hmem, rfl⟩ := foldlM_addNode_eq_error.1 h
    show List.Duplicate n.id d.ids
    rw [Document.ids, hnodes, List.map_append, List.map_cons, List.duplicate_iff_sublist]
    exact (List.singleton_sublist.2 hmem).append (List.singleton_sublist.2 List.mem_cons_self)
  · obtain ⟨before, edge, after, missing, hedges, rfl, -, hmissing⟩ := foldlM_addEdge_eq_error.1 h
    rw [mem_foldlM_addNode hindex, mem_foldlM_addNode hindex] at hmissing
    have hedge : edge ∈ d.edges := by simp [hedges]
    rcases hmissing with ⟨hsource, rfl⟩ | ⟨-, htarget, rfl⟩
    · exact ⟨edge, hedge, rfl, rfl, Or.inl rfl, hsource⟩
    · exact ⟨edge, hedge, rfl, rfl, Or.inr rfl, htarget⟩

theorem Indexes.holds_of_start {g : Graph} {d : Document} (hg : g.Indexes d) (h : g.start = .error e) : e.Holds d := by
  obtain ⟨hne, rfl⟩ := hg.start_eq_error.1 h
  exact ⟨rfl, hne⟩

end Graph

/-- the error is about the ids or edges of a document, which are checked before anything else -/
def GraphError.isStructural : GraphError → Bool
  | .danglingEdge _ _ _ => true
  | .duplicateNode _ => true
  | _ => false

/-- a sound document has no such error -/
theorem GraphError.Holds.not_isStructural {d : Document} (hd : d.Sound) {e : GraphError} (h : e.Holds d) :
    e.isStructural = false := by
  cases e with
  | danglingEdge source target missing =>
    obtain ⟨edge, hedge, rfl, rfl, rfl | rfl, hids⟩ := h
    · exact absurd (hd.edges edge hedge).1 hids
    · exact absurd (hd.edges edge hedge).2 hids
  | duplicateNode id => exact absurd hd.ids_nodup (List.exists_duplicate_iff_not_nodup.1 ⟨id, h⟩)
  | _ => rfl

/-- **Graph errors are true.** What a graph error says of the document is the case, for all options. An error about ids
or edges is only reported of a document that has no graph. -/
theorem build_graph_error (d : Document) (o : Options) (e : GraphError) (h : (d.build o).outcome = .error (.graph e)) :
    e.Holds d ∧ ((∃ g, Graph.ofDocument d = .ok g) → e.isStructural = false) := by
  have hholds : e.Holds d := by
    have hdirect := (h ▸ build_agrees d o).eq_error
    unfold Document.buildDirect at hdirect
    rcases bind_eq_error.1 hdirect with hgraph | ⟨g, hg, hdirect⟩
    · obtain ⟨cause, hcause, heq⟩ := mapError_eq_error.1 hgraph
      cases heq
      exact Graph.holds_of_ofDocument hcause
    have hok := mapError_eq_ok.1 hg
    have hindex := Graph.indexes_ofDocument hok
    rcases bind_eq_error.1 hdirect with hstart | ⟨n, hn, hdirect⟩
    · obtain ⟨cause, hcause, heq⟩ := mapError_eq_error.1 hstart
      cases heq
      exact hindex.holds_of_start hcause
    · have hstarts := hindex.start_eq_ok.1 (mapError_eq_ok.1 hn)
      have hrun : d.Run ⟨n.id, .follow⟩ [] := .start (by simp [hstarts])
      exact Document.holds_of_direct ((Graph.ofDocument_isOk d).1 ⟨g, hok⟩) hrun nofun hdirect
  exact ⟨hholds, fun hgraph => hholds.not_isStructural ((Graph.ofDocument_isOk d).1 hgraph)⟩

/-- a loop whose child is a conditional, from which the flow goes back to the loop -/
def backToLoop : Document where
  nodes := [⟨"s", .start, [], []⟩, ⟨"l", .loop, [("loopArray", .str "$xs"), ("currentItemName", .str "x")], ["c"]⟩,
    ⟨"c", .conditional, [("expression", .str "$x === $last")], []⟩]
  edges := [⟨"s", "l", none⟩, ⟨"c", "l", some false⟩]

theorem build_backToLoop : (backToLoop.build {}).outcome = .error (.graph (.cyclic "l" "c")) := by cbv

theorem build_graph_error_backToLoop :
    (backToLoop.build {}).outcome = .error (.graph (.cyclic "l" "c")) ∧ (GraphError.cyclic "l" "c").Holds backToLoop :=
  ⟨build_backToLoop, (build_graph_error backToLoop {} _ build_backToLoop).1⟩

end Flowchart
