/-
What a compilation depends on.

A compilation reads a node by its id, and of its edges the first to go on by or the first for each outcome. So only the
nodes count that the traversal can come to, and of these only what their kinds make use of. Here two documents are
compared on a set of ids (`AgreesAt`) that the traversal of the first does not leave (`Closed`).

- `direct_eq_of_agrees`: entering a node of the set compiles alike in both documents, with the same errors.
- `Sound.node?_perm`: the order of the nodes does not matter for finding one by its id.
- `build_local`: documents that agree on a closed set with the start node have the same outcome. In particular the order
  of nodes, the order of edges and edges that are not taken make no difference.
-/
import Flowchart.Proofs.Refinement
import Flowchart.Proofs.Visits
import Mathlib

namespace Flowchart

/-- Two nodes have the same kind and properties and, if they are loops, the same children. -/
structure Node.Alike (n n' : Node) : Prop where
  kind : n.kind = n'.kind
  properties : n.properties = n'.properties
  children : n.kind = .loop → n.children = n'.children

namespace Document

/-- the edges that a node takes lead to the same ids: of a conditional the first for each outcome, of an end none, and
of the others the first without a condition -/
def SameTargets (d d' : Document) (n : Node) : Prop :=
  match n.kind with
  | .conditional => ∀ outcome, d.target? n.id (some outcome) = d'.target? n.id (some outcome)
  | .finish => True
  | _ => d.target? n.id none = d'.target? n.id none

/-- Two documents agree at an id: neither has a node there, or both have nodes that are alike and whose edges lead to
the same ids. -/
def AgreesAt (d d' : Document) (id : String) : Prop :=
  Option.Rel (fun n n' => n.Alike n' ∧ d.SameTargets d' n) (d.node? id) (d'.node? id)

/-- the traversal does not leave a set of ids -/
def Closed (d : Document) (ids : Set String) : Prop := ∀ c c', d.Step c c' → c.id ∈ ids → c'.id ∈ ids

/-! ## One node -/

variable {d d' : Document} {n n' : Node} {client : String} {atEnd : Expression → List Statement}

/-- what a node reads is its kind, its properties and its id -/
theorem around_eq_of_alike (hid : n.id = n'.id) (h : n.Alike n') : n.around client atEnd = n'.around client atEnd := by
  obtain ⟨id, kind, properties, children⟩ := n
  obtain ⟨id', kind', properties', children'⟩ := n'
  obtain ⟨hkind, hproperties, -⟩ := h
  cases hid
  cases hkind
  cases hproperties
  rfl

theorem firstBlock_eq_of_alike (hid : n.id = n'.id) (h : n.Alike n') (ht : d.SameTargets d' n) :
    d.firstBlock n = d'.firstBlock n' := by
  unfold firstBlock
  unfold SameTargets at ht
  rw [← h.kind, ← hid]
  cases hk : n.kind with
  | conditional =>
    rw [hk] at ht
    rw [ht true]
  | loop => rw [h.children hk]
  | _ => rfl

theorem secondBlock_eq_of_alike (hid : n.id = n'.id) (h : n.Alike n') (ht : d.SameTargets d' n) :
    d.secondBlock n = d'.secondBlock n' := by
  unfold secondBlock
  unfold SameTargets at ht
  rw [← h.kind, ← hid]
  cases hk : n.kind with
  | conditional =>
    rw [hk] at ht
    rw [ht false]
  | _ => rfl

theorem after_eq_of_alike (hid : n.id = n'.id) (h : n.Alike n') (ht : d.SameTargets d' n) (k : Continuation) :
    d.after n k = d'.after n' k := by
  unfold after next?
  unfold SameTargets at ht
  rw [← h.kind, ← hid]
  cases hk : n.kind with
  | conditional => rfl
  | finish => rfl
  | _ =>
    rw [hk] at ht
    cases k with
    | follow => rw [ht]
    | stop => rfl

theorem enterAll_congr {enter enter' : Descent} {cs : List Visit} (h : ∀ c ∈ cs, enter c.id c.k = enter' c.id c.k) :
    enterAll enter cs = enterAll enter' cs := by
  induction cs with
  | nil => rfl
  | cons c cs ih =>
    rw [enterAll, enterAll, h c List.mem_cons_self, ih fun c' hc' => h c' (List.mem_cons_of_mem c hc')]

/-! ## The traversal -/

/-- **Compilation stays in a closed set.** From an id of the set on, documents that agree on it are compiled alike. -/
theorem direct_eq_of_agrees {ids : Set String} (hclosed : d.Closed ids) (h : ∀ id ∈ ids, d.AgreesAt d' id)
    (path : List String) (id via : String) (k : Continuation) (hid : id ∈ ids) :
    d.direct client atEnd path id via k = d'.direct client atEnd path id via k := by
  induction path, id using d.path_induction generalizing via k with
  | enter path id ih =>
    have hagree := h id hid
    unfold AgreesAt at hagree
    cases hn : d.node? id with
    | none =>
      rw [hn] at hagree
      cases hn' : d'.node? id with
      | none => rw [direct_missing hn, direct_missing hn']
      | some n' =>
        rw [hn'] at hagree
        cases hagree
    | some n =>
      rw [hn] at hagree
      cases hn' : d'.node? id with
      | none =>
        rw [hn'] at hagree
        cases hagree
      | some n' =>
        rw [hn'] at hagree
        obtain ⟨halike, htargets⟩ := Option.rel_some_some.1 hagree
        by_cases hp : id ∈ path
        · rw [direct_repeated hn hp, direct_repeated hn' hp]
        · have hids : n.id = n'.id := (node?_id hn).trans (node?_id hn').symm
          have henter : ∀ c ∈ d.steps n k, d.descent client atEnd (id :: path) id c.id c.k =
              d'.descent client atEnd (id :: path) id c.id c.k := by
            intro c hc
            have hstep : d.Step ⟨id, k⟩ c := (mem_steps hn).1 hc
            exact ih n hn hp c.id id c.k (hclosed _ c hstep hid)
          simp only [steps, List.mem_append] at henter
          rw [direct_enter hn hp, direct_enter hn' hp, Node.direct_eq, Node.direct_eq,
            ← around_eq_of_alike hids halike, ← firstBlock_eq_of_alike hids halike htargets,
            ← secondBlock_eq_of_alike hids halike htargets, ← after_eq_of_alike hids halike htargets k,
            enterAll_congr fun c hc => henter c (Or.inl (Or.inl hc)),
            enterAll_congr fun c hc => henter c (Or.inl (Or.inr hc)), enterAll_congr fun c hc => henter c (Or.inr hc)]

/-! ## Documents -/

/-- Two documents have graphs, and each has one start node, with the same id. -/
structure Comparable (d d' : Document) : Prop where
  graph : ∃ g, Graph.ofDocument d = .ok g
  graph' : ∃ g, Graph.ofDocument d' = .ok g
  start : ∃ n n', d.starts = [n] ∧ d'.starts = [n'] ∧ n.id = n'.id

/-- direct compilation of a graph with one start node -/
theorem buildDirect_of_starts (hg : ∃ g, Graph.ofDocument d = .ok g) (hs : d.starts = [n]) :
    d.buildDirect client atEnd = (d.direct client atEnd [] n.id n.id .follow).run none := by
  obtain ⟨g, hg⟩ := hg
  unfold buildDirect
  rw [mapError_eq_ok.2 hg, ok_bind, mapError_eq_ok.2 ((Graph.indexes_ofDocument hg).start_eq_ok.2 hs), ok_bind]

theorem Comparable.buildDirect_eq (h : d.Comparable d') {ids : Set String} (hstart : ∀ n ∈ d.starts, n.id ∈ ids)
    (hclosed : d.Closed ids) (hagree : ∀ id ∈ ids, d.AgreesAt d' id) :
    d.buildDirect client atEnd = d'.buildDirect client atEnd := by
  obtain ⟨n, n', hn, hn', hid⟩ := h.start
  have hmem : n.id ∈ ids := hstart n (by simp [hn])
  rw [buildDirect_of_starts h.graph hn, buildDirect_of_starts h.graph' hn', ← hid,
    direct_eq_of_agrees hclosed hagree [] n.id n.id .follow hmem]

/-- what direct compilation gives decides the outcome -/
theorem build_congr {o : Options}
    (h : d.buildDirect o.httpClient Node.inPlace = d'.buildDirect o.httpClient Node.inPlace) :
    (d.build o).outcome = (d'.build o).outcome := by
  have hd := build_agrees d o
  have hd' := build_agrees d' o
  rw [← h] at hd'
  refine Agree.eq (hd.trans hd' fun p q p' _ hp hp' => ?_)
  obtain ⟨body⟩ := p
  obtain ⟨body'⟩ := p'
  exact congrArg Program.mk (hp.trans hp'.symm)

/-- a node is found by its id wherever it stands -/
theorem Sound.node?_perm (hd : d'.Sound) (h : d.nodes.Perm d'.nodes) (id : String) : d.node? id = d'.node? id := by
  cases hn : d.node? id with
  | none =>
    have hids : id ∉ d.ids := by
      rw [← node?_isSome, hn]
      exact nofun
    have hids' : id ∉ d'.ids := fun hmem => hids ((h.map (·.id)).mem_iff.2 hmem)
    exact (Option.not_isSome_iff_eq_none.1 (node?_isSome.not.2 hids')).symm
  | some n =>
    have hmem : n ∈ d'.nodes := h.mem_iff.1 (List.mem_of_find?_eq_some hn)
    rw [← hd.node?_of_mem hmem, node?_id hn]

end Document

/-- **Compilation is local.** Two documents have graphs, each with one start node, of the same id. If they agree on a
set of ids that has the start and that the traversal of the first does not leave, they have the same outcome, errors
included. So they do if the nodes are the same in another order and the edges that nodes take lead to the same ids:
neither the order of edges nor the edges that are not taken count. -/
theorem build_local {d d' : Document} (h : d.Comparable d') (o : Options) :
    (∀ ids : Set String, (∀ n ∈ d.starts, n.id ∈ ids) → d.Closed ids → (∀ id ∈ ids, d.AgreesAt d' id) →
      (d.build o).outcome = (d'.build o).outcome) ∧
    (d.nodes.Perm d'.nodes → (∀ n ∈ d.nodes, d.SameTargets d' n) → (d.build o).outcome = (d'.build o).outcome) := by
  refine ⟨fun ids hstart hclosed hagree => Document.build_congr (h.buildDirect_eq hstart hclosed hagree), ?_⟩
  intro hperm htargets
  have hstart : ∀ n ∈ d.starts, n.id ∈ (Set.univ : Set String) := fun _ _ => trivial
  have hagree : ∀ id ∈ (Set.univ : Set String), d.AgreesAt d' id := by
    intro id _
    have hd' : d'.Sound := (Graph.ofDocument_isOk d').1 h.graph'
    unfold Document.AgreesAt
    rw [← hd'.node?_perm hperm id]
    cases hn : d.node? id with
    | none => exact Option.Rel.none
    | some n => exact Option.Rel.some ⟨⟨rfl, rfl, fun _ => rfl⟩, htargets n (List.mem_of_find?_eq_some hn)⟩
  exact Document.build_congr (h.buildDirect_eq hstart (fun _ _ _ _ => trivial) hagree)

/-- a flow that sets a variable and returns it -/
def brief : Document where
  nodes := [⟨"s", .start, [], []⟩, ⟨"a", .setVariable, [("key", .str "x"), ("value", .str "1")], []⟩,
    ⟨"e", .finish, [("output", .str "$x")], []⟩]
  edges := [⟨"s", "a", none⟩, ⟨"a", "e", none⟩]

/-- `brief` with the nodes and edges in another order, a loop that is not reached, edges that are not taken, and
children of a node that is no loop -/
def cluttered : Document where
  nodes := [⟨"e", .finish, [("output", .str "$x")], []⟩, ⟨"u", .loop, [], ["nowhere"]⟩,
    ⟨"a", .setVariable, [("key", .str "x"), ("value", .str "1")], ["s"]⟩, ⟨"s", .start, [], []⟩]
  edges := [⟨"a", "u", some true⟩, ⟨"e", "s", none⟩, ⟨"a", "e", none⟩, ⟨"u", "a", none⟩, ⟨"s", "a", none⟩,
    ⟨"a", "a", none⟩]

theorem comparable_brief_cluttered : brief.Comparable cluttered where
  graph := (Graph.ofDocument_isOk _).2 ⟨by decide, by decide⟩
  graph' := (Graph.ofDocument_isOk _).2 ⟨by decide, by decide⟩
  start := ⟨_, _, rfl, rfl, rfl⟩

theorem closed_brief : brief.Closed {"s", "a", "e"} := by
  intro c c' hstep hc
  cases hstep with
  | next hn hcond hfin ht =>
    rcases hc with rfl | rfl | rfl
    · cases (show some "a" = some _ from ht)
      simp
    · cases (show some "e" = some _ from ht)
      simp
    · cases (show none = some _ from ht)
  | branch hn hcond outcome ht =>
    rcases hc with rfl | rfl | rfl
    all_goals
      cases (show some _ = some _ from hn)
      cases hcond
  | child hn hl hchild =>
    rcases hc with rfl | rfl | rfl
    all_goals
      cases (show some _ = some _ from hn)
      cases hl

theorem build_local_brief :
    brief.Comparable cluttered ∧ (brief.build {}).outcome = (cluttered.build {}).outcome := by
  refine ⟨comparable_brief_cluttered, ?_⟩
  refine (build_local comparable_brief_cluttered {}).1 {"s", "a", "e"} ?_ closed_brief ?_
  · simp [Document.starts, brief]
  · rintro id (rfl | rfl | rfl)
    · exact Option.Rel.some ⟨⟨rfl, rfl, nofun⟩, rfl⟩
    · exact Option.Rel.some ⟨⟨rfl, rfl, nofun⟩, rfl⟩
    · exact Option.Rel.some ⟨⟨rfl, rfl, nofun⟩, trivial⟩

end Flowchart
