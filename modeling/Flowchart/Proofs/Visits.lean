/-
Compilation visit by visit.

Direct compilation is the same for all kinds of nodes: it reads the properties of a node, compiles what is visited for
its first block, for its second block and after it, and puts the statement of the node around the blocks (`direct_eq`).
So it enters the nodes of the traversal in depth-first order.

- `clear_of_direct`: when compilation succeeds, the traversal is clear.
- `Clear.stateAfter_direct`: when the traversal is clear, errors and what the function returns are those of the checks
  of its nodes, one after the other.
-/
import Flowchart.Proofs.Traversal

namespace Flowchart

open Statement

/-! ## One node -/

/-- enter all visits, one after the other -/
def enterAll (enter : Descent) : List Visit → Direct (List Statement)
  | [] => return []
  | c :: cs => do
    let first ← enter c.id c.k
    let rest ← enterAll enter cs
    return first ++ rest

@[simp] theorem enterAll_nil (enter : Descent) : enterAll enter [] = pure [] := rfl

theorem enterAll_next (n : Node) (d : Document) (k : Continuation) (enter : Descent) :
    enterAll enter (Visit.onward (d.next? n.id k)) = n.directNext d k enter := by
  unfold Node.directNext
  cases d.next? n.id k <;> simp [Visit.onward, enterAll]

theorem enterAll_branch (n : Node) (d : Document) (outcome : Bool) (enter : Descent) :
    enterAll enter (Visit.onward (d.target? n.id (some outcome))) = n.directBranch d outcome enter := by
  unfold Node.directBranch
  cases d.target? n.id (some outcome) <;> simp [Visit.onward, enterAll]

theorem enterAll_children (enter : Descent) (children : List String) :
    enterAll enter (children.map fun child => ⟨child, .stop⟩) =
      List.flatten <$> children.mapM fun child => enter child .stop := by
  induction children with
  | nil => simp
  | cons child rest ih => simp [enterAll, ih, List.mapM_cons]

namespace Node

/-- the statement of a node around what its blocks hold -/
def around (n : Node) (client : String) (atEnd : Expression → List Statement) :
    Direct (List Statement → List Statement → List Statement) :=
  match n.kind with
  | .start => return fun _ _ => []
  | .setVariable => do
    let statement ← Direct.read n.assignment
    return fun _ _ => [statement]
  | .conditional => do
    let test ← Direct.read (n.expression "expression")
    return fun consequent alternate => [.conditional test consequent alternate]
  | .httpCall => do
    let statement ← Direct.read (n.httpCall client)
    return fun _ _ => [statement]
  | .loop => do
    let (iterable, item) ← Direct.read n.loopHead
    return fun body _ => [.forEach item iterable body]
  | .finish => do
    let statements ← n.directFinish atEnd
    return fun _ _ => statements

theorem run_around_finish_some {n : Node} (h : n.kind = .finish) (client : String)
    (atEnd : Expression → List Statement) (a : Expression) :
    (n.around client atEnd).run (some a) = .ok (fun _ _ => [], some a) := by
  simp [around, h, directFinish, pure_eq_ok]

theorem run_around_finish_none {n : Node} (h : n.kind = .finish) (client : String)
    (atEnd : Expression → List Statement) :
    (n.around client atEnd).run none =
      (fun argument => (fun _ _ => atEnd argument, some argument)) <$> (n.expression "output").outcome := by
  simp [around, h, directFinish]

/-- **One node.** Its properties are read, its blocks are compiled, and then what follows it. -/
theorem direct_eq (n : Node) (d : Document) (client : String) (atEnd : Expression → List Statement) (k : Continuation)
    (enter : Descent) :
    n.direct d client atEnd k enter = do
      let put ← n.around client atEnd
      let first ← enterAll enter (d.firstBlock n)
      let second ← enterAll enter (d.secondBlock n)
      let rest ← enterAll enter (d.after n k)
      return put first second ++ rest := by
  cases hk : n.kind <;>
    simp [direct, around, Document.firstBlock, Document.secondBlock, Document.after, hk, enterAll_next, enterAll_branch,
      enterAll_children]

/-- what the function returns after a node was entered, whose properties must be readable -/
def check (n : Node) (client : String) (r : Option Expression) : Except Error (Option Expression) :=
  match n.kind with
  | .start => pure r
  | .setVariable => (fun _ => r) <$> n.assignment.outcome
  | .conditional => (fun _ => r) <$> (n.expression "expression").outcome
  | .httpCall => (fun _ => r) <$> (n.httpCall client).outcome
  | .loop => (fun _ => r) <$> n.loopHead.outcome
  | .finish => if r.isSome then pure r else some <$> (n.expression "output").outcome

section

variable {n : Node} {d : Document} {client : String} {atEnd : Expression → List Statement} {k : Continuation}
  {enter : Descent} {r : Option Expression} {q : List Statement × Option Expression}

/-- the steps in which a node is compiled -/
theorem run_direct_eq_ok :
    (n.direct d client atEnd k enter).run r = .ok q ↔
      ∃ put r1 first r2 second r3 rest, (n.around client atEnd).run r = .ok (put, r1) ∧
        (enterAll enter (d.firstBlock n)).run r1 = .ok (first, r2) ∧
        (enterAll enter (d.secondBlock n)).run r2 = .ok (second, r3) ∧
        (enterAll enter (d.after n k)).run r3 = .ok (rest, q.2) ∧ q.1 = put first second ++ rest := by
  obtain ⟨statements, r'⟩ := q
  rw [direct_eq]
  simp only [StateT.run_bind, bind_eq_ok, Prod.exists, StateT.run_pure, pure_eq_ok, Prod.mk.injEq]
  constructor
  · rintro ⟨put, r1, h, first, r2, h1, second, r3, h2, rest, r4, h3, rfl, rfl⟩
    exact ⟨put, r1, first, r2, second, r3, rest, h, h1, h2, h3, rfl⟩
  · rintro ⟨put, r1, first, r2, second, r3, rest, h, h1, h2, h3, rfl⟩
    exact ⟨put, r1, h, first, r2, h1, second, r3, h2, rest, r', h3, rfl, rfl⟩

end

end Node

theorem run_enterAll_nil_eq_ok {enter : Descent} {r : Option Expression} {q : List Statement × Option Expression} :
    (enterAll enter []).run r = .ok q ↔ q = ([], r) := pure_eq_ok

theorem run_enterAll_cons_eq_ok {enter : Descent} {c : Visit} {cs : List Visit} {r : Option Expression}
    {q : List Statement × Option Expression} :
    (enterAll enter (c :: cs)).run r = .ok q ↔
      ∃ first r1 rest, (enter c.id c.k).run r = .ok (first, r1) ∧ (enterAll enter cs).run r1 = .ok (rest, q.2) ∧
        q.1 = first ++ rest := by
  obtain ⟨statements, r'⟩ := q
  simp only [enterAll, StateT.run_bind, bind_eq_ok, Prod.exists, StateT.run_pure, pure_eq_ok, Prod.mk.injEq]
  constructor
  · rintro ⟨first, r1, h, rest, r2, h1, rfl, rfl⟩
    exact ⟨first, r1, rest, h, h1, rfl⟩
  · rintro ⟨first, r1, rest, h, h1, rfl⟩
    exact ⟨first, r1, h, rest, r', h1, rfl, rfl⟩

/-- Induction over a list of visits that was compiled. -/
theorem enterAll_induction {enter : Descent}
    {motive : List Visit → Option Expression → List Statement × Option Expression → Prop}
    (nil : ∀ r, motive [] r ([], r))
    (cons : ∀ c cs r first r1 rest r', (enter c.id c.k).run r = .ok (first, r1) →
      (enterAll enter cs).run r1 = .ok (rest, r') → motive cs r1 (rest, r') → motive (c :: cs) r (first ++ rest, r'))
    {cs : List Visit} {r : Option Expression} {q : List Statement × Option Expression}
    (h : (enterAll enter cs).run r = .ok q) : motive cs r q := by
  induction cs generalizing r q with
  | nil =>
    rw [run_enterAll_nil_eq_ok.1 h]
    exact nil r
  | cons c cs ih =>
    obtain ⟨statements, r'⟩ := q
    obtain ⟨first, r1, rest, hfirst, hrest, rfl⟩ := run_enterAll_cons_eq_ok.1 h
    exact cons c cs r first r1 rest r' hfirst hrest (ih hrest)

/-- Induction over a compilation that succeeds: a statement about entering a node may use the statement about all nodes
that are entered from it. -/
theorem Document.direct_induction (d : Document) (client : String) (atEnd : Expression → List Statement)
    {motive : List String → Visit → String → Option Expression → List Statement × Option Expression → Prop}
    (enter : ∀ path c via n r q, d.node? c.id = some n → c.id ∉ path →
      (n.direct d client atEnd c.k (d.descent client atEnd (c.id :: path) c.id)).run r = .ok q →
      (∀ (c' : Visit) r q, (d.direct client atEnd (c.id :: path) c'.id c.id c'.k).run r = .ok q →
        motive (c.id :: path) c' c.id r q) → motive path c via r q)
    {path : List String} {c : Visit} {via : String} {r : Option Expression} {q : List Statement × Option Expression}
    (h : (d.direct client atEnd path c.id via c.k).run r = .ok q) : motive path c via r q := by
  generalize hid : c.id = id at h
  induction path, id using d.path_induction generalizing c via r q with
  | enter path id ih =>
    subst hid
    cases hn : d.node? c.id with
    | none =>
      rw [direct_missing hn] at h
      cases h
    | some n =>
      by_cases hp : c.id ∈ path
      · rw [direct_repeated hn hp] at h
        cases h
      · rw [direct_enter hn hp] at h
        exact enter path c via n r q hn hp h fun c' r q h' => ih n hn hp c'.id rfl h'

/-! ## The state -/

/-- the state that a compilation leaves -/
def stateAfter {α : Type} (x : Direct α) (r : Option Expression) : Except Error (Option Expression) :=
  Prod.snd <$> x.run r

theorem stateAfter_eq_ok {α : Type} {x : Direct α} {r r' : Option Expression} :
    stateAfter x r = .ok r' ↔ ∃ a, x.run r = .ok (a, r') := by
  unfold stateAfter
  cases x.run r with
  | error e => simp
  | ok q =>
    obtain ⟨a, r1⟩ := q
    simp

theorem stateAfter_bind {α β : Type} (x : Direct α) (f : α → Direct β) (r : Option Expression)
    (g : Option Expression → Except Error (Option Expression)) (h : ∀ a r', stateAfter (f a) r' = g r') :
    stateAfter (x >>= f) r = stateAfter x r >>= g := by
  unfold stateAfter at h ⊢
  rw [StateT.run_bind, map_bind, bind_map_left]
  exact bind_congr fun q => h q.1 q.2

theorem stateAfter_around (n : Node) (client : String) (atEnd : Expression → List Statement) (r : Option Expression) :
    stateAfter (n.around client atEnd) r = n.check client r := by
  unfold stateAfter Node.around Node.check
  cases hk : n.kind <;> cases r <;> simp [Node.directFinish]

theorem Node.check_of_around {n : Node} {client : String} {atEnd : Expression → List Statement}
    {r r1 : Option Expression} {put : List Statement → List Statement → List Statement}
    (h : (n.around client atEnd).run r = .ok (put, r1)) : n.check client r = .ok r1 := by
  rw [← stateAfter_around n client atEnd]
  exact stateAfter_eq_ok.2 ⟨put, h⟩

theorem stateAfter_enterAll (enter : Descent) (cs : List Visit) (r : Option Expression) :
    stateAfter (enterAll enter cs) r = cs.foldlM (fun r c => stateAfter (enter c.id c.k) r) r := by
  induction cs generalizing r with
  | nil => rfl
  | cons c cs ih =>
    rw [enterAll, List.foldlM_cons]
    refine stateAfter_bind _ _ _ _ fun first r' => ?_
    rw [← ih]
    simp [stateAfter]

/-- what a node and all that it leads to does to the state -/
theorem stateAfter_direct (n : Node) (d : Document) (client : String) (atEnd : Expression → List Statement)
    (k : Continuation) (enter : Descent) (r : Option Expression) :
    stateAfter (n.direct d client atEnd k enter) r =
      n.check client r >>= fun r => (d.steps n k).foldlM (fun r c => stateAfter (enter c.id c.k) r) r := by
  rw [Node.direct_eq, ← stateAfter_around n client atEnd]
  refine stateAfter_bind _ _ _ _ fun put r1 => ?_
  rw [Document.steps, List.append_assoc, List.foldlM_append, ← stateAfter_enterAll]
  refine stateAfter_bind _ _ _ _ fun first r2 => ?_
  rw [List.foldlM_append, ← stateAfter_enterAll]
  refine stateAfter_bind _ _ _ _ fun second r3 => ?_
  rw [← stateAfter_enterAll]
  simp [stateAfter]

/-! ## The traversal -/

theorem exists_ok_of_foldlM {ε α β : Type} {f : β → α → Except ε β} {xs : List α} {b b' : β}
    (h : xs.foldlM f b = .ok b') {x : α} (hx : x ∈ xs) : ∃ c c', f c x = .ok c' := by
  induction xs generalizing b with
  | nil => cases hx
  | cons y ys ih =>
    rw [List.foldlM_cons, bind_eq_ok] at h
    obtain ⟨b1, hy, hys⟩ := h
    rcases List.mem_cons.1 hx with rfl | hx
    · exact ⟨b, b1, hy⟩
    · exact ih hys hx

/-- a fold whose steps are folds themselves -/
theorem foldlM_flatMap {ε α β γ : Type} {f : γ → β → Except ε γ} {g : α → List β} {h : γ → α → Except ε γ}
    {xs : List α} (hx : ∀ x ∈ xs, ∀ c, h c x = (g x).foldlM f c) (c : γ) :
    xs.foldlM h c = (xs.flatMap g).foldlM f c := by
  induction xs generalizing c with
  | nil => rfl
  | cons x xs ih =>
    rw [List.foldlM_cons, List.flatMap_cons, List.foldlM_append, hx x List.mem_cons_self]
    exact bind_congr fun c' => ih (fun y hy => hx y (List.mem_cons_of_mem x hy)) c'

namespace Document

variable {d : Document} {client : String} {atEnd : Expression → List Statement}

/-- compilation succeeds only on clear traversals -/
theorem clear_of_direct {path : List String} {c : Visit} {via : String} {r : Option Expression}
    {q : List Statement × Option Expression} (h : (d.direct client atEnd path c.id via c.k).run r = .ok q) :
    d.Clear path c := by
  refine d.direct_induction client atEnd (motive := fun path c _ _ _ => d.Clear path c) ?_ h
  intro path c via n r q hn hp h ih
  refine .enter hn hp fun c' hc' => ?_
  have hstate := stateAfter_eq_ok.2 ⟨q.1, h⟩
  rw [stateAfter_direct, bind_eq_ok] at hstate
  obtain ⟨r1, -, hsteps⟩ := hstate
  obtain ⟨r2, r3, hr⟩ := exists_ok_of_foldlM hsteps hc'
  obtain ⟨statements, hrun⟩ := stateAfter_eq_ok.1 hr
  exact ih c' r2 _ hrun

/-- **Compilation along the traversal.** On a clear traversal, the state and the errors are those of the checks of the
nodes in depth-first order. -/
theorem Clear.stateAfter_direct {path : List String} {c : Visit} (h : d.Clear path c) (via : String)
    (r : Option Expression) :
    stateAfter (d.direct client atEnd path c.id via c.k) r =
      (d.tour path c).foldlM (fun r n => n.check client r) r := by
  induction h generalizing via r with
  | @enter path c n hn hp hs ih =>
    rw [direct_enter hn hp, Flowchart.stateAfter_direct, tour_enter hn hp, List.foldlM_cons]
    exact bind_congr fun r1 => foldlM_flatMap (fun c' hc' r2 => ih c' hc' c.id r2) r1

theorem foldlM_check_of_direct {path : List String} {c : Visit} {via : String} {r : Option Expression}
    {q : List Statement × Option Expression} (h : (d.direct client atEnd path c.id via c.k).run r = .ok q) :
    (d.tour path c).foldlM (fun r n => n.check client r) r = .ok q.2 := by
  rw [← (clear_of_direct h).stateAfter_direct via]
  exact stateAfter_eq_ok.2 ⟨q.1, h⟩

theorem foldlM_check_of_enterAll {path : List String} {cs : List Visit} {via : String} {r : Option Expression}
    {q : List Statement × Option Expression}
    (h : (enterAll (d.descent client atEnd path via) cs).run r = .ok q) :
    (cs.flatMap (d.tour path)).foldlM (fun r n => n.check client r) r = .ok q.2 := by
  refine enterAll_induction (motive := fun cs r q =>
    (cs.flatMap (d.tour path)).foldlM (fun r n => n.check client r) r = .ok q.2) (fun r => rfl) ?_ h
  intro c cs r first r1 rest r' hfirst _ ih
  rwa [List.flatMap_cons, List.foldlM_append, foldlM_check_of_direct hfirst]

end Document

end Flowchart
