/-
Direct compilation.

A document is compiled by one recursion that returns lists of statements: a node gives its own statement, with the
lists of what it leads to inside it or after it. There is no table of blocks and no index. The recursion carries one
piece of state, what the function returns once the end of the flow was reached: later ends are then not read.

`atEnd` is what an end adds to the list that it is reached for. With nothing (`fun _ => []`), the lists are the program
without its return. With the return itself (`inPlace`), they also say where the return was reached.
-/
import Flowchart.Proofs.Index
import Flowchart.Proofs.Layout
import Flowchart.Proofs.Outcome

namespace Flowchart

open Statement

/-- a compilation: it stops at the first error, and carries what the function returns -/
abbrev Direct := StateT (Option Expression) (Except Error)

/-- the outcome of a reading, without its log -/
def Direct.read {α : Type} (x : Logged Error α) : Direct α := liftM x.outcome

@[simp] theorem Direct.run_read {α : Type} (x : Logged Error α) (r : Option Expression) :
    (Direct.read x).run r = (fun a => (a, r)) <$> x.outcome := by
  show (x.outcome >>= fun a => pure (a, r)) = _
  simp

theorem Direct.run_read_eq_ok {α β : Type} {x : Logged Error α} {f : α → β} {r : Option Expression}
    {q : β × Option Expression} :
    (do let a ← Direct.read x; return f a : Direct β).run r = .ok q ↔ ∃ a, x.outcome = .ok a ∧ q = (f a, r) := by
  simp only [StateT.run_bind, run_read, StateT.run_pure, bind_map_left, bind_eq_ok, pure_eq_ok]

/-- how a direct compilation enters a node -/
abbrev Descent := String → Continuation → Direct (List Statement)

namespace Document

/-- where the flow goes on after a node -/
def next? (d : Document) (id : String) : Continuation → Option String
  | .follow => d.target? id none
  | .stop => none

/-- the number of nodes that are not on a path -/
def offPath (d : Document) (path : List String) : Nat := (d.ids.filter (· ∉ path)).length

theorem offPath_cons_lt {d : Document} {path : List String} {id : String} {n : Node} (hn : d.node? id = some n)
    (hp : id ∉ path) : d.offPath (id :: path) < d.offPath path :=
  Graph.length_filter_notMem_cons_lt (node?_isSome.1 (by simp [hn])) hp

/-- Induction over the nodes that are not on the path: a statement about entering a node may use the statement about
entering its successors. -/
theorem path_induction (d : Document) {motive : List String → String → Prop}
    (enter : ∀ path id, (∀ n, d.node? id = some n → id ∉ path → ∀ child, motive (id :: path) child) → motive path id)
    (path : List String) (id : String) : motive path id :=
  enter path id fun _ hn hp child =>
    have := offPath_cons_lt hn hp
    path_induction d enter (id :: path) child
termination_by d.offPath path

end Document

namespace Node

/-- an end adds its return to the list that it is reached for -/
def inPlace (argument : Expression) : List Statement := [.ret argument]

/-- what follows a node -/
def directNext (n : Node) (d : Document) (k : Continuation) (enter : Descent) : Direct (List Statement) :=
  match d.next? n.id k with
  | some target => enter target .follow
  | none => return []

/-- the branch of a conditional for one outcome -/
def directBranch (n : Node) (d : Document) (outcome : Bool) (enter : Descent) : Direct (List Statement) :=
  match d.target? n.id (some outcome) with
  | some target => enter target .follow
  | none => return []

/-- the end of the flow: the first that is reached is what the function returns -/
def directFinish (n : Node) (atEnd : Expression → List Statement) : Direct (List Statement) := do
  if (← get).isSome then return []
  else
    let argument ← Direct.read (n.expression "output")
    set (some argument)
    return atEnd argument

/-- the statements of a node and of what it leads to -/
def direct (n : Node) (d : Document) (client : String) (atEnd : Expression → List Statement) (k : Continuation)
    (enter : Descent) : Direct (List Statement) :=
  match n.kind with
  | .start => n.directNext d k enter
  | .setVariable => do
    let statement ← Direct.read n.assignment
    let rest ← n.directNext d k enter
    return statement :: rest
  | .conditional => do
    let test ← Direct.read (n.expression "expression")
    let consequent ← n.directBranch d true enter
    let alternate ← n.directBranch d false enter
    return [.conditional test consequent alternate]
  | .httpCall => do
    let statement ← Direct.read (n.httpCall client)
    let rest ← n.directNext d k enter
    return statement :: rest
  | .loop => do
    let (iterable, item) ← Direct.read n.loopHead
    let bodies ← n.children.mapM fun child => enter child .stop
    let rest ← n.directNext d k enter
    return .forEach item iterable bodies.flatten :: rest
  | .finish => n.directFinish atEnd

/-! ## The equations of one node -/

theorem kind_assignment {n : Node} {statement : Statement} (h : n.assignment.outcome = .ok statement) :
    statement.kind = .expression := by
  unfold assignment at h
  simp only [Logged.outcome_bind, bind_eq_ok] at h
  obtain ⟨key, -, -, -, left, -, right, -, h⟩ := h
  cases h
  rfl

theorem kind_httpCall {n : Node} {client : String} {statement : Statement}
    (h : (n.httpCall client).outcome = .ok statement) : statement.kind = .declaration := by
  unfold httpCall at h
  simp only [Logged.outcome_bind, bind_eq_ok] at h
  obtain ⟨url, -, method, -, parameters, -, properties, -, name, -, h⟩ := h
  cases h
  rfl

section

variable {n : Node} {d : Document} {client : String} {atEnd : Expression → List Statement} {k : Continuation}
  {enter : Descent} {r : Option Expression}

theorem run_direct_start (h : n.kind = .start) :
    (n.direct d client atEnd k enter).run r = (n.directNext d k enter).run r := by
  rw [direct, h]

theorem run_direct_setVariable (h : n.kind = .setVariable) :
    (n.direct d client atEnd k enter).run r = n.assignment.outcome >>= fun statement =>
      (n.directNext d k enter).run r >>= fun q => pure (statement :: q.1, q.2) := by
  rw [direct, h]
  simp

theorem run_direct_conditional (h : n.kind = .conditional) :
    (n.direct d client atEnd k enter).run r = (n.expression "expression").outcome >>= fun test =>
      (n.directBranch d true enter).run r >>= fun q => (n.directBranch d false enter).run q.2 >>= fun q' =>
        pure ([.conditional test q.1 q'.1], q'.2) := by
  rw [direct, h]
  simp

theorem run_direct_httpCall (h : n.kind = .httpCall) :
    (n.direct d client atEnd k enter).run r = (n.httpCall client).outcome >>= fun statement =>
      (n.directNext d k enter).run r >>= fun q => pure (statement :: q.1, q.2) := by
  rw [direct, h]
  simp

theorem run_direct_loop (h : n.kind = .loop) :
    (n.direct d client atEnd k enter).run r = n.loopHead.outcome >>= fun head =>
      (n.children.mapM fun child => enter child .stop).run r >>= fun q => (n.directNext d k enter).run q.2 >>= fun q' =>
        pure (.forEach head.2 head.1 q.1.flatten :: q'.1, q'.2) := by
  rw [direct, h]
  simp

theorem run_direct_finish_some (h : n.kind = .finish) (argument : Expression) :
    (n.direct d client atEnd k enter).run (some argument) = pure ([], some argument) := by
  rw [direct, h]
  simp [directFinish]

theorem run_direct_finish_none (h : n.kind = .finish) :
    (n.direct d client atEnd k enter).run none = (n.expression "output").outcome >>= fun argument =>
      pure (atEnd argument, some argument) := by
  rw [direct, h]
  simp [directFinish]

end

end Node

namespace Document

/-- Enter the node `id` from the node `via`. It must exist, and must not be on the path. -/
def direct (d : Document) (client : String) (atEnd : Expression → List Statement) (path : List String)
    (id via : String) (k : Continuation) : Direct (List Statement) :=
  match hn : d.node? id with
  | none => throw (.graph (.missingNode id via))
  | some n =>
    if hp : id ∈ path then throw (.graph (.cyclic id via))
    else
      have := offPath_cons_lt hn hp
      n.direct d client atEnd k fun child k => d.direct client atEnd (id :: path) child id k
termination_by d.offPath path

/-- how the nodes are entered that a node leads to -/
abbrev descent (d : Document) (client : String) (atEnd : Expression → List Statement) (path : List String)
    (via : String) : Descent :=
  fun child k => d.direct client atEnd path child via k

/-- The statements of a document and what they return. The document must be a graph with one start node. -/
def buildDirect (d : Document) (client : String) (atEnd : Expression → List Statement) :
    Except Error (List Statement × Option Expression) := do
  let g ← (Graph.ofDocument d).mapError Error.graph
  let start ← g.start.mapError Error.graph
  (d.direct client atEnd [] start.id start.id .follow).run none

variable {d : Document} {client : String} {atEnd : Expression → List Statement} {path : List String}
  {id via : String} {k : Continuation}

theorem direct_missing (hn : d.node? id = none) :
    d.direct client atEnd path id via k = throw (.graph (.missingNode id via)) := by
  rw [direct]
  split
  · rfl
  · rename_i n h
    rw [hn] at h
    cases h

theorem direct_repeated {n : Node} (hn : d.node? id = some n) (hp : id ∈ path) :
    d.direct client atEnd path id via k = throw (.graph (.cyclic id via)) := by
  rw [direct]
  split
  · rename_i h
    rw [hn] at h
    cases h
  · rw [dif_pos hp]

theorem direct_enter {n : Node} (hn : d.node? id = some n) (hp : id ∉ path) :
    d.direct client atEnd path id via k = n.direct d client atEnd k (d.descent client atEnd (id :: path) id) := by
  rw [direct]
  split
  · rename_i h
    rw [hn] at h
    cases h
  · rename_i m h
    rw [hn] at h
    cases h
    rw [dif_neg hp]

end Document

/-! ## Returns in place

Compiled with returns in place, a flow gives the same lists with one return in them: the one that the state carries. -/

/-- The first compilation leaves returns out that the second has in place. Those are what the function returns, unless
it had returned before. -/
def Splits (r : Option Expression) (q q' : List Statement × Option Expression) : Prop :=
  q.1 = pruneAll Placement.nested.keeps q'.1 ∧ q.2 = q'.2 ∧ r.toList ++ returns q'.1 = q'.2.toList

namespace Splits

theorem refl (r : Option Expression) : Splits r ([], r) ([], r) := by
  simp [Splits]

theorem append {r : Option Expression} {q q' p p' : List Statement × Option Expression} (h : Splits r q q')
    (h' : Splits q'.2 p p') : Splits r (q.1 ++ p.1, p.2) (q'.1 ++ p'.1, p'.2) := by
  obtain ⟨h1, h2, h3⟩ := h
  obtain ⟨h4, h5, h6⟩ := h'
  refine ⟨?_, h5, ?_⟩
  · simp [h1, h4]
  · simp [← h6, ← h3]

end Splits

namespace Node

variable {n : Node} {d : Document} {client : String} {k : Continuation} {enter enter' : Descent}
  {r : Option Expression}

/-- the two compilations enter nodes alike -/
def EnterSplits (enter enter' : Descent) : Prop :=
  ∀ child k r, Agree (Splits r) ((enter child k).run r) ((enter' child k).run r)

theorem directNext_splits (h : EnterSplits enter enter') :
    Agree (Splits r) ((n.directNext d k enter).run r) ((n.directNext d k enter').run r) := by
  unfold directNext
  cases d.next? n.id k with
  | none => exact Splits.refl r
  | some target => exact h target .follow r

theorem directBranch_splits (h : EnterSplits enter enter') (outcome : Bool) :
    Agree (Splits r) ((n.directBranch d outcome enter).run r) ((n.directBranch d outcome enter').run r) := by
  unfold directBranch
  cases d.target? n.id (some outcome) with
  | none => exact Splits.refl r
  | some target => exact h target .follow r

theorem children_splits (h : EnterSplits enter enter') (children : List String) :
    Agree (fun q q' => Splits r (q.1.flatten, q.2) (q'.1.flatten, q'.2))
      ((children.mapM fun child => enter child .stop).run r)
      ((children.mapM fun child => enter' child .stop).run r) := by
  induction children generalizing r with
  | nil => exact Splits.refl r
  | cons child rest ih =>
    rw [List.mapM_cons, List.mapM_cons, StateT.run_bind, StateT.run_bind]
    refine (h child .stop r).bind fun q q' hq => ?_
    rw [StateT.run_bind, StateT.run_bind, hq.2.1]
    exact ih.bind fun p p' hp => hq.append hp

/-- a statement that was read, and what follows it -/
theorem statement_splits (h : EnterSplits enter enter') {s : Statement} (hs : s.isLeaf) (hr : s.kind ≠ .ret) :
    Agree (Splits r) ((n.directNext d k enter).run r >>= fun q => pure (s :: q.1, q.2))
      ((n.directNext d k enter').run r >>= fun q => pure (s :: q.1, q.2)) := by
  refine (directNext_splits h).bind fun q q' hq => ?_
  have hsplit : Splits r ([s], r) ([s], r) := by
    simp [Splits, pruneAll, prune_leaf _ hs, Placement.nested_keeps, hr, returns_leaf hs hr]
  exact hsplit.append hq

/-- compiling a node with and without returns in place -/
theorem direct_splits (h : EnterSplits enter enter') :
    Agree (Splits r) ((n.direct d client (fun _ => []) k enter).run r)
      ((n.direct d client inPlace k enter').run r) := by
  cases hk : n.kind with
  | start =>
    rw [run_direct_start hk, run_direct_start hk]
    exact directNext_splits h
  | setVariable =>
    rw [run_direct_setVariable hk, run_direct_setVariable hk]
    refine Agree.bind_same fun s hs => ?_
    have hkind := kind_assignment hs
    exact statement_splits h (isLeaf_of_kind (by simp [hkind])) (by simp [hkind])
  | conditional =>
    rw [run_direct_conditional hk, run_direct_conditional hk]
    refine Agree.bind_same fun test _ => ?_
    refine (directBranch_splits h true).bind fun q q' hq => ?_
    rw [hq.2.1]
    refine (directBranch_splits h false).bind fun p p' hp => ?_
    refine ⟨?_, hp.2.1, ?_⟩
    · simp [pruneAll, prune, Statement.kind, Placement.nested_keeps, hq.1, hp.1]
    · simp [← hp.2.2, ← hq.2.2]
  | httpCall =>
    rw [run_direct_httpCall hk, run_direct_httpCall hk]
    refine Agree.bind_same fun s hs => ?_
    have hkind := kind_httpCall hs
    exact statement_splits h (isLeaf_of_kind (by simp [hkind])) (by simp [hkind])
  | loop =>
    rw [run_direct_loop hk, run_direct_loop hk]
    refine Agree.bind_same fun head _ => ?_
    refine (children_splits h n.children).bind fun q q' hq => ?_
    rw [show q.2 = q'.2 from hq.2.1]
    refine (directNext_splits h).bind fun p p' hp => ?_
    have hloop : Splits r ([.forEach head.2 head.1 q.1.flatten], q'.2)
        ([.forEach head.2 head.1 q'.1.flatten], q'.2) := by
      have hbody : q.1.flatten = pruneAll Placement.nested.keeps q'.1.flatten := hq.1
      have hreturns : r.toList ++ returns q'.1.flatten = q'.2.toList := hq.2.2
      simp [Splits, pruneAll, prune, Statement.kind, hbody, hreturns]
    exact hloop.append hp
  | finish =>
    cases r with
    | some argument =>
      rw [run_direct_finish_some hk, run_direct_finish_some hk]
      exact Splits.refl _
    | none =>
      rw [run_direct_finish_none hk, run_direct_finish_none hk]
      refine Agree.bind_same fun argument _ => ?_
      simp [Agree, Splits, inPlace, pruneAll, Statement.kind, pure, Except.pure]

end Node

/-- **Returns in place.** Leaving returns out changes neither the errors nor what is returned, and prunes the lists. -/
theorem Document.direct_splits (d : Document) (client : String) (path : List String) (id via : String)
    (k : Continuation) (r : Option Expression) :
    Agree (Splits r) ((d.direct client (fun _ => []) path id via k).run r)
      ((d.direct client Node.inPlace path id via k).run r) := by
  induction path, id using d.path_induction generalizing via k r with
  | enter path id ih =>
    cases hn : d.node? id with
    | none =>
      rw [direct_missing hn, direct_missing hn]
      exact rfl
    | some n =>
      by_cases hp : id ∈ path
      · rw [direct_repeated hn hp, direct_repeated hn hp]
        exact rfl
      · rw [direct_enter hn hp, direct_enter hn hp]
        exact Node.direct_splits fun child k r => ih n hn hp child id k r

/-- the returns in place are what the function returns, unless it had returned before -/
theorem Document.returns_direct {d : Document} {client : String} {path : List String} {id via : String}
    {k : Continuation} {r : Option Expression} {q : List Statement × Option Expression}
    (h : (d.direct client Node.inPlace path id via k).run r = .ok q) : r.toList ++ returns q.1 = q.2.toList := by
  obtain ⟨p, -, -, -, hreturns⟩ := (h ▸ d.direct_splits client path id via k r).exists_left
  exact hreturns

theorem Document.buildDirect_splits (d : Document) (client : String) :
    Agree (Splits none) (d.buildDirect client fun _ => []) (d.buildDirect client Node.inPlace) := by
  unfold buildDirect
  refine Agree.bind_same fun g _ => ?_
  refine Agree.bind_same fun start _ => ?_
  exact d.direct_splits client [] start.id start.id .follow none

theorem Document.returns_buildDirect {d : Document} {client : String} {q : List Statement × Option Expression}
    (h : d.buildDirect client Node.inPlace = .ok q) : returns q.1 = q.2.toList := by
  obtain ⟨p, -, -, -, hreturns⟩ := (h ▸ d.buildDirect_splits client).exists_left
  exact hreturns

end Flowchart
