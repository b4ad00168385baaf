/-
Which flows can be compiled.

Compilation enters the nodes of the traversal in depth-first order, and checks each of them. So it succeeds exactly when
the traversal is clear, all its nodes are readable, and the output of the first end is. All three are said without any
compilation.

- `foldlM_check_none`: when the checks of a list of nodes succeed, and what the function then returns.
- `build_isOk`: a document is compiled exactly when it is `Compilable`, for all options.
-/
import Flowchart.Proofs.Readable
import Flowchart.Proofs.Refinement
import Flowchart.Proofs.Visits

namespace Flowchart

open Statement

/-! ## The checks -/

namespace Node

theorem map_const_eq_ok {ε α β : Type} {x : Except ε α} {b b' : β} :
    (fun _ => b) <$> x = .ok b' ↔ x.isOk ∧ b' = b := by
  cases x <;> simp [eq_comm]

variable {n : Node} {client : String} {r r' : Option Expression}

theorem check_of_not_isEnd (h : ¬n.isEnd) : n.check client r = .ok r' ↔ n.readable ∧ r' = r := by
  unfold check readable
  cases hk : n.kind with
  | finish => exact absurd (isEnd_iff.2 hk) h
  | start => simp [pure_eq_ok]
  | _ => simp only [map_const_eq_ok, isOk_assignment, isOk_expression, isOk_httpCall, isOk_loopHead]

theorem check_of_isEnd_none (h : n.isEnd) :
    n.check client none = .ok r' ↔ ∃ a, (n.expression "output").outcome = .ok a ∧ r' = some a := by
  unfold check
  rw [isEnd_iff.1 h]
  cases (n.expression "output").outcome <;> simp [eq_comm]

theorem check_some {a : Expression} : n.check client (some a) = .ok r' ↔ n.readable ∧ r' = some a := by
  by_cases h : n.isEnd
  · simp [check, readable, isEnd_iff.1 h, pure_eq_ok]
  · exact check_of_not_isEnd h

/-- once the function returns, all nodes must be readable, and what it returns stays -/
theorem foldlM_check_some {ns : List Node} {a : Expression} :
    ns.foldlM (fun r n => n.check client r) (some a) = .ok r' ↔ (∀ n ∈ ns, n.readable) ∧ r' = some a := by
  induction ns with
  | nil => simp [pure_eq_ok]
  | cons n ns ih =>
    simp only [List.foldlM_cons, bind_eq_ok, check_some, List.forall_mem_cons, and_assoc]
    simp [ih]

/-- all nodes must be readable, and the output of the first end; that is what the function returns -/
theorem foldlM_check_none {ns : List Node} :
    ns.foldlM (fun r n => n.check client r) none = .ok r' ↔
      (∀ n ∈ ns, n.readable) ∧
        match ns.find? isEnd with
        | none => r' = none
        | some n => ∃ a, (n.expression "output").outcome = .ok a ∧ r' = some a := by
  induction ns with
  | nil => simp [pure_eq_ok]
  | cons n ns ih =>
    rw [List.foldlM_cons, bind_eq_ok, List.find?_cons, List.forall_mem_cons]
    by_cases h : n.isEnd
    · have hreadable : n.readable := by rw [readable, isEnd_iff.1 h]
      simp only [check_of_isEnd_none h, h, hreadable, true_and]
      constructor
      · rintro ⟨r1, ⟨a, ha, rfl⟩, hr⟩
        obtain ⟨hns, rfl⟩ := foldlM_check_some.1 hr
        exact ⟨hns, a, ha, rfl⟩
      · rintro ⟨hns, a, ha, rfl⟩
        exact ⟨some a, ⟨a, ha, rfl⟩, foldlM_check_some.2 ⟨hns, rfl⟩⟩
    · simp only [check_of_not_isEnd h, h, and_assoc]
      simp [ih]

/-- after the checks, the function returns if it did before or if there was an end -/
theorem isSome_of_foldlM_check {ns : List Node} (h : ns.foldlM (fun r n => n.check client r) r = .ok r') :
    r'.isSome = (r.isSome || ns.any isEnd) := by
  cases r with
  | some a =>
    obtain ⟨-, rfl⟩ := foldlM_check_some.1 h
    rfl
  | none =>
    obtain ⟨-, hr⟩ := foldlM_check_none.1 h
    cases hf : ns.find? isEnd with
    | none =>
      rw [hf] at hr
      have hany : ns.any isEnd = false := by simpa using hf
      rw [hr, hany]
      rfl
    | some n =>
      rw [hf] at hr
      obtain ⟨a, -, rfl⟩ := hr
      have hany : ns.any isEnd = true := List.any_eq_true.2 ⟨n, List.mem_of_find?_eq_some hf, List.find?_some hf⟩
      rw [hany]
      rfl

end Node

namespace Document

variable {d : Document} {client : String} {atEnd : Expression → List Statement}

/-! ## Which documents are compiled -/

/-- what a document needs to be compiled -/
structure Compilable (d : Document) : Prop where
  /-- every node has an id of its own, and every edge runs between nodes -/
  sound : d.Sound
  /-- there is one start node -/
  start : ∃ n, d.starts = [n]
  /-- no path of the traversal visits a node twice -/
  simple : ∀ c path, d.Run c path → ((c :: path).map (·.id)).Nodup
  /-- the children of a loop that is reached are nodes -/
  children : ∀ n, d.Reaches n → n.kind = .loop → ∀ child ∈ n.children, child ∈ d.ids
  /-- the properties of a node that is reached are there and well formed -/
  readable : ∀ n, d.Reaches n → n.readable
  /-- the output of the first end is there and well formed -/
  output : ∀ n, d.firstEnd? = some n → n.hasExpression "output"

theorem buildDirect_eq_ok {q : List Statement × Option Expression} :
    d.buildDirect client atEnd = .ok q ↔
      d.Sound ∧ ∃ n, d.starts = [n] ∧ (d.direct client atEnd [] n.id n.id .follow).run none = .ok q := by
  simp only [buildDirect, bind_eq_ok, mapError_eq_ok]
  constructor
  · rintro ⟨g, hg, n, hn, h⟩
    exact ⟨(Graph.ofDocument_isOk d).1 ⟨g, hg⟩, n, (Graph.indexes_ofDocument hg).start_eq_ok.1 hn, h⟩
  · rintro ⟨hsound, n, hn, h⟩
    obtain ⟨g, hg⟩ := (Graph.ofDocument_isOk d).2 hsound
    exact ⟨g, hg, n, (Graph.indexes_ofDocument hg).start_eq_ok.2 hn, h⟩

theorem traversal_of_starts {n : Node} (h : d.starts = [n]) : d.traversal = d.tour [] ⟨n.id, .follow⟩ := by
  simp [traversal, h]

/-- a document that is compiled: its traversal is clear, its nodes are readable, and what it returns is the output of
the first end -/
theorem traversal_of_buildDirect {q : List Statement × Option Expression} (h : d.buildDirect client atEnd = .ok q) :
    d.AllClear ∧ (∀ n ∈ d.traversal, n.readable) ∧
      match d.firstEnd? with
      | none => q.2 = none
      | some n => ∃ a, (n.expression "output").outcome = .ok a ∧ q.2 = some a := by
  obtain ⟨-, n, hn, h⟩ := buildDirect_eq_ok.1 h
  have hchecks : (d.tour [] ⟨n.id, .follow⟩).foldlM (fun r n => n.check client r) none = .ok q.2 :=
    foldlM_check_of_direct h
  rw [← traversal_of_starts hn] at hchecks
  refine ⟨?_, Node.foldlM_check_none.1 hchecks⟩
  intro m hm
  rw [hn, List.mem_singleton] at hm
  subst hm
  exact clear_of_direct h

theorem compilable_of_buildDirect {q : List Statement × Option Expression} (h : d.buildDirect client atEnd = .ok q) :
    d.Compilable := by
  obtain ⟨hsound, n, hn, -⟩ := buildDirect_eq_ok.1 h
  obtain ⟨hclear, hreadable, hend⟩ := traversal_of_buildDirect h
  refine ⟨hsound, ⟨n, hn⟩, fun c path hr => hclear.nodup hr, ?_, ?_, ?_⟩
  · rintro m ⟨c, path, hr, hm⟩ hl child hc
    obtain ⟨n', hn'⟩ := (hclear.clear (hr.step (.child hm hl hc))).exists_node
    exact node?_isSome.1 (by simp [hn'])
  · exact fun m hm => hreadable m (hclear.mem_traversal.2 hm)
  · intro m hm
    rw [hm] at hend
    obtain ⟨a, ha, -⟩ := hend
    rw [← m.isOk_expression, ha, isOk_ok]

namespace Compilable

theorem allClear (h : d.Compilable) : d.AllClear := fun _ hn =>
  clear_of_runs (fun _ _ hr => h.sound.mem_ids_of_run h.children hr) h.simple (.start hn)

/-- the checks of all nodes succeed, in depth-first order -/
theorem foldlM_check (h : d.Compilable) (client : String) :
    ∃ r, d.traversal.foldlM (fun r n => n.check client r) none = .ok r := by
  have hreadable : ∀ n ∈ d.traversal, n.readable := fun n hn => h.readable n (h.allClear.mem_traversal.1 hn)
  have hend := h.output
  simp only [Node.foldlM_check_none]
  unfold firstEnd? at hend
  cases hfirst : d.traversal.find? Node.isEnd with
  | none => exact ⟨none, hreadable, rfl⟩
  | some n =>
    obtain ⟨a, ha⟩ := isOk_iff.1 ((n.isOk_expression "output").trans (hend n hfirst))
    exact ⟨some a, hreadable, a, ha, rfl⟩

theorem buildDirect (h : d.Compilable) (client : String) (atEnd : Expression → List Statement) :
    ∃ q, d.buildDirect client atEnd = .ok q := by
  obtain ⟨n, hn⟩ := h.start
  obtain ⟨r, hr⟩ := h.foldlM_check client
  have hclear : d.Clear [] ⟨n.id, .follow⟩ := h.allClear n (by simp [hn])
  have hstate : stateAfter (d.direct client atEnd [] n.id n.id .follow) none = .ok r := by
    rw [hclear.stateAfter_direct, ← traversal_of_starts hn, hr]
  obtain ⟨statements, hdirect⟩ := stateAfter_eq_ok.1 hstate
  exact ⟨(statements, r), buildDirect_eq_ok.2 ⟨h.sound, n, hn, hdirect⟩⟩

end Compilable

end Document

/-- **Which documents are compiled.** For all options, a document has a tree exactly when it is `Compilable`. -/
theorem build_isOk (d : Document) (o : Options) : (∃ p, (d.build o).outcome = .ok p) ↔ d.Compilable := by
  have h := build_agrees d o
  constructor
  · rintro ⟨p, hp⟩
    rw [hp] at h
    obtain ⟨q, hq, -⟩ := h.exists_right
    exact Document.compilable_of_buildDirect hq
  · intro hd
    obtain ⟨q, hq⟩ := hd.buildDirect o.httpClient Node.inPlace
    rw [hq] at h
    obtain ⟨p, hp, -⟩ := h.exists_left
    exact ⟨p, hp⟩

end Flowchart
