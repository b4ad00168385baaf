/-
The walk refines direct compilation.

The walk writes into a table of blocks through block numbers, and puts returns (and, when they are hoisted,
conditionals) at the root from any depth. Direct compilation returns lists. Both stop at the same error, and otherwise
the walk adds to the table exactly the layout of what direct compilation returns (`visit_follows`).

- `build_agrees`: the finished tree is the layout of the directly compiled statements, for either placement.
- `build_nested_direct`: with nested conditionals, the program is what direct compilation gives, with its one return at
  the root.
-/
import Flowchart.Proofs.Blocks
import Flowchart.Proofs.Direct
import Mathlib

namespace Flowchart

open Statement

/-! ## One node -/

/-- the walk has come as far as direct compilation: it has returned if that has, and has laid out its statements -/
def Carries (keep : StatementKind → Bool) (b : Nat) (s : Progress) (s' : Progress)
    (q : List Statement × Option Expression) : Prop :=
  s'.returned = q.2.isSome ∧ Draft.Adds keep b q.1 s.draft s'.draft

/-- the walk enters nodes as direct compilation does -/
def Follows (keep : StatementKind → Bool) (enter : Enter) (enter' : Descent) : Prop :=
  ∀ id b k s r, b < s.draft.size → s.returned = r.isSome →
    Agree (Carries keep b s) (enter id b k s).outcome ((enter' id k).run r)

theorem Carries.refl {keep : StatementKind → Bool} {b : Nat} {s : Progress} {r : Option Expression}
    (hr : s.returned = r.isSome) : Carries keep b s s ([], r) :=
  ⟨hr, Draft.Adds.refl b s.draft⟩

theorem Carries.trans {keep : StatementKind → Bool} {b : Nat} {s s' s'' : Progress} {ts us : List Statement}
    {r r' : Option Expression} (hb : b < s.draft.size) (h : Carries keep b s s' (ts, r))
    (h' : Carries keep b s' s'' (us, r')) : Carries keep b s s'' (ts ++ us, r') :=
  ⟨h'.1, h.2.trans hb h'.2⟩

theorem Carries.size_lt {keep : StatementKind → Bool} {b i : Nat} {s s' : Progress}
    {q : List Statement × Option Expression} (h : Carries keep b s s' q) (hi : i < s.draft.size) :
    i < s'.draft.size :=
  Nat.lt_of_lt_of_le hi h.2.size_le

namespace Node

section

variable {g : Graph} {d : Document} {keep : StatementKind → Bool} {enter : Enter} {enter' : Descent} {n : Node}
  {b : Nat} {k : Continuation} {s : Progress} {r : Option Expression}

theorem proceed_follows (hg : g.Indexes d) (h : Follows keep enter enter') (hb : b < s.draft.size)
    (hr : s.returned = r.isSome) :
    Agree (Carries keep b s) (n.proceed g b k enter s).outcome ((n.directNext d k enter').run r) := by
  cases k with
  | stop => exact Carries.refl hr
  | follow =>
    have hnext := hg.next? n.id
    unfold proceed directNext Document.next?
    rw [← hnext]
    cases g.next? n.id with
    | none => exact Carries.refl hr
    | some edge => exact h edge.target b .follow s r hb hr

theorem lowerBranch_follows (hg : g.Indexes d) (h : Follows keep enter enter') (outcome : Bool)
    (hb : b < s.draft.size) (hr : s.returned = r.isSome) :
    Agree (Carries keep b s) (n.lowerBranch g enter outcome b s).outcome ((n.directBranch d outcome enter').run r) := by
  have hbranch := hg.branch? n.id outcome
  unfold lowerBranch directBranch
  rw [← hbranch]
  cases g.branch? n.id outcome with
  | none => exact Carries.refl hr
  | some edge => exact h edge.target b .follow s r hb hr

/-- the children of a loop, one after the other -/
theorem children_follow (h : Follows keep enter enter') (children : List String) (hb : b < s.draft.size)
    (hr : s.returned = r.isSome) :
    Agree (fun s' q => Carries keep b s s' (q.1.flatten, q.2))
      (children.foldlM (fun s child => enter child b .stop s) s).outcome
      ((children.mapM fun child => enter' child .stop).run r) := by
  induction children generalizing s r with
  | nil => exact Carries.refl hr
  | cons child rest ih =>
    rw [List.foldlM_cons, List.mapM_cons, Logged.outcome_bind, StateT.run_bind]
    refine (h child b .stop s r hb hr).bind fun s1 q1 h1 => ?_
    rw [StateT.run_bind]
    exact (ih (h1.size_lt hb) h1.1).bind_pure fun s2 q2 h2 => h1.trans hb h2

end

variable {g : Graph} {d : Document} {o : Options} {enter : Enter} {enter' : Descent} {n : Node} {b : Nat}
  {k : Continuation} {s : Progress} {r : Option Expression}

theorem conditionalBlock_eq (o : Options) (b : Nat) :
    conditionalBlock o b = Draft.home o.placement.keeps b .conditional := by
  unfold conditionalBlock Draft.home
  cases o.placement <;> rfl

/-- a statement that stays, and then what follows the node -/
theorem statement_follows (hg : g.Indexes d) (h : Follows o.placement.keeps enter enter') (hb : b < s.draft.size)
    (hr : s.returned = r.isSome) {statement : Statement} (hleaf : statement.isLeaf)
    (hkeep : o.placement.keeps statement.kind = true) :
    Agree (Carries o.placement.keeps b s) (n.proceed g b k enter (s.emit b (.statement statement))).outcome
      ((n.directNext d k enter').run r >>= fun q => pure (statement :: q.1, q.2)) := by
  have hadd : Carries o.placement.keeps b s (s.emit b (.statement statement)) ([statement], r) := by
    have hleaf' : Draft.Adds o.placement.keeps b [statement] s.draft _ := Draft.adds_leaf hb hleaf
    rw [Draft.home, if_pos hkeep] at hleaf'
    exact ⟨hr, hleaf'⟩
  exact (proceed_follows hg h (hadd.size_lt hb) hr).bind_pure fun s' q hq => hadd.trans hb hq

theorem lowerConditional_follows (hg : g.Indexes d) (h : Follows o.placement.keeps enter enter')
    (hb : b < s.draft.size) (hr : s.returned = r.isSome) :
    Agree (Carries o.placement.keeps b s) (n.lowerConditional g o b enter s).outcome
      ((n.expression "expression").outcome >>= fun test => (n.directBranch d true enter').run r >>= fun q =>
        (n.directBranch d false enter').run q.2 >>= fun q' => pure ([.conditional test q.1 q'.1], q'.2)) := by
  unfold lowerConditional
  rw [Logged.outcome_bind]
  refine Agree.bind_same fun test _ => ?_
  rw [Logged.outcome_bind, conditionalBlock_eq]
  refine (lowerBranch_follows (s := s.openBlock.openBlock.emit _ _) hg h true ?_ hr).bind fun s1 q1 h1 => ?_
  · show s.draft.size < _
    simp [Progress.emit, Progress.openBlock]
  refine (lowerBranch_follows hg h false ?_ h1.1).bind_pure fun s2 q2 h2 => ?_
  · refine h1.size_lt ?_
    simp [Progress.emit, Progress.openBlock]
  · exact ⟨h2.1, Draft.adds_conditional hb h1.2 h2.2⟩

theorem lowerLoop_follows (h : Follows o.placement.keeps enter enter') (hb : b < s.draft.size)
    (hr : s.returned = r.isSome) :
    Agree (Carries o.placement.keeps b s) (n.lowerLoop b enter s).outcome
      (n.loopHead.outcome >>= fun head => (n.children.mapM fun child => enter' child .stop).run r >>= fun q =>
        pure ([.forEach head.2 head.1 q.1.flatten], q.2)) := by
  unfold lowerLoop
  rw [Logged.outcome_bind]
  refine Agree.bind_same fun ⟨iterable, item⟩ _ => ?_
  refine (children_follow (s := s.openBlock.emit _ _) h n.children ?_ hr).bind_pure fun s1 q1 h1 => ?_
  · show s.draft.size < _
    simp [Progress.emit, Progress.openBlock]
  · exact ⟨h1.1, Draft.adds_forEach o.placement.keeps_forEach hb h1.2⟩

theorem lowerFinish_follows (hb : b < s.draft.size) (hr : s.returned = r.isSome) (hk : n.kind = .finish) :
    Agree (Carries o.placement.keeps b s) (n.lowerFinish s).outcome
      ((n.direct d o.httpClient inPlace k enter').run r) := by
  unfold lowerFinish
  cases r with
  | some argument =>
    rw [run_direct_finish_some hk, if_pos (by simpa using hr)]
    exact Carries.refl hr
  | none =>
    rw [run_direct_finish_none hk, if_neg (by simp [hr]), Logged.outcome_bind]
    refine Agree.bind_same fun argument _ => ?_
    have hret : Draft.Adds o.placement.keeps b [.ret argument] s.draft _ := Draft.adds_leaf hb rfl
    rw [Draft.home, show (Statement.ret argument).kind = .ret from rfl, o.placement.keeps_ret] at hret
    exact ⟨rfl, hret⟩

/-- what a node adds is what direct compilation gives for it -/
theorem lower_follows (hg : g.Indexes d) (h : Follows o.placement.keeps enter enter') (hb : b < s.draft.size)
    (hr : s.returned = r.isSome) :
    Agree (Carries o.placement.keeps b s) (n.lower g o b k enter s).outcome
      ((n.direct d o.httpClient inPlace k enter').run r) := by
  unfold lower
  cases hk : n.kind with
  | start =>
    rw [run_direct_start hk]
    simp only [Logged.outcome_bind, Logged.outcome_log, ok_bind]
    exact proceed_follows hg h hb hr
  | setVariable =>
    rw [run_direct_setVariable hk]
    simp only [Logged.outcome_bind, Logged.outcome_log, ok_bind]
    refine Agree.bind_same fun statement hs => ?_
    have hkind := kind_assignment hs
    exact statement_follows hg h hb hr (isLeaf_of_kind (by simp [hkind])) (by rw [hkind]; rfl)
  | conditional =>
    rw [run_direct_conditional hk]
    simp only [Logged.outcome_bind, Logged.outcome_log, ok_bind]
    exact lowerConditional_follows hg h hb hr
  | httpCall =>
    rw [run_direct_httpCall hk]
    simp only [Logged.outcome_bind, Logged.outcome_log, ok_bind]
    refine Agree.bind_same fun statement hs => ?_
    have hkind := kind_httpCall hs
    exact statement_follows hg h hb hr (isLeaf_of_kind (by simp [hkind])) (by rw [hkind]; rfl)
  | loop =>
    rw [run_direct_loop hk]
    simp only [Logged.outcome_bind, Logged.outcome_log, ok_bind]
    have hsplit : (n.loopHead.outcome >>= fun head => (n.children.mapM fun child => enter' child .stop).run r >>=
        fun q => (n.directNext d k enter').run q.2 >>= fun q' =>
          pure (forEach head.2 head.1 q.1.flatten :: q'.1, q'.2)) =
        (n.loopHead.outcome >>= fun head => (n.children.mapM fun child => enter' child .stop).run r >>= fun q =>
          pure ([forEach head.2 head.1 q.1.flatten], q.2)) >>= fun q => (n.directNext d k enter').run q.2 >>= fun q' =>
            pure (q.1 ++ q'.1, q'.2) := by
      simp
    rw [hsplit]
    refine (lowerLoop_follows h hb hr).bind fun s1 q1 h1 => ?_
    exact (proceed_follows hg h (h1.size_lt hb) h1.1).bind_pure fun s2 q2 h2 => h1.trans hb h2
  | finish =>
    simp only [Logged.outcome_bind, Logged.outcome_log, ok_bind]
    exact lowerFinish_follows hb hr hk

end Node

/-! ## The walk -/

section

variable {g : Graph} {o : Options} {path : List String} {id via : String} {b : Nat} {k : Continuation} {s : Progress}

theorem visit_missing (hn : g.node? id = none) :
    visit g o path id via b k s = .fail (.graph (.missingNode id via)) := by
  rw [visit]
  split
  · rfl
  · rename_i n h
    rw [hn] at h
    cases h

theorem visit_repeated {n : Node} (hn : g.node? id = some n) (hp : id ∈ path) :
    visit g o path id via b k s = .fail (.graph (.cyclic id via)) := by
  rw [visit]
  split
  · rename_i h
    rw [hn] at h
    cases h
  · rw [dif_pos hp]

theorem visit_enter {n : Node} (hn : g.node? id = some n) (hp : id ∉ path) :
    visit g o path id via b k s =
      n.lower g o b k (fun child block k s => visit g o (id :: path) child id block k s) s := by
  rw [visit]
  split
  · rename_i h
    rw [hn] at h
    cases h
  · rename_i m h
    rw [hn] at h
    cases h
    rw [dif_neg hp]

end

/-- **The walk refines direct compilation.** Entering a node stops at the same error, or lays out for the block what
direct compilation gives for the node. -/
theorem visit_follows {g : Graph} {d : Document} (hg : g.Indexes d) (o : Options) (path : List String)
    (id via : String) (b : Nat) (k : Continuation) (s : Progress) (r : Option Expression) (hb : b < s.draft.size)
    (hr : s.returned = r.isSome) :
    Agree (Carries o.placement.keeps b s) (visit g o path id via b k s).outcome
      ((d.direct o.httpClient Node.inPlace path id via k).run r) := by
  induction path, id using d.path_induction generalizing via b k s r with
  | enter path id ih =>
    cases hn : d.node? id with
    | none =>
      rw [visit_missing ((hg.node? id).trans hn), Document.direct_missing hn]
      exact rfl
    | some n =>
      have hn' : g.node? id = some n := (hg.node? id).trans hn
      by_cases hp : id ∈ path
      · rw [visit_repeated hn' hp, Document.direct_repeated hn hp]
        exact rfl
      · rw [visit_enter hn' hp, Document.direct_enter hn hp]
        exact Node.lower_follows hg (fun child => ih n hn hp child id) hb hr

/-- **The finished tree.** For either placement, building a tree stops at the same error as direct compilation, or gives
the layout of what that gives. -/
theorem build_agrees (d : Document) (o : Options) :
    Agree (fun p q => p.body = layout o.placement.keeps q.1) (d.build o).outcome
      (d.buildDirect o.httpClient Node.inPlace) := by
  unfold Document.build Document.buildDirect
  rw [Logged.outcome_bind]
  refine Agree.bind_same fun g hg => ?_
  have hindex := Graph.indexes_ofDocument (mapError_eq_ok.1 hg)
  simp only [Logged.outcome_bind, Logged.outcome_log, ok_bind, Graph.build]
  refine Agree.bind_same fun start _ => ?_
  have h := visit_follows hindex o [] start.id start.id Draft.root .follow {} none (by decide) rfl
  have hbody : ∀ (s' : Progress) (q : List Statement × Option Expression),
      Carries o.placement.keeps Draft.root {} s' q →
      Agree (fun p q => p.body = layout o.placement.keeps q.1) (.ok s'.draft.program) (pure q : Except Error _) :=
    fun s' q hq => Draft.program_body hq.2
  simpa using h.bind hbody

/-! ## Nested conditionals -/

theorem filter_not_isReturn_layout (ts : List Statement) :
    (layout Placement.nested.keeps ts).filter (fun s => !s.isReturn) = pruneAll Placement.nested.keeps ts := by
  rw [← filter_layout]
  exact List.filter_congr fun s _ => (nested_keeps_kind s).symm

/-- **Nested conditionals: the program is what direct compilation gives.** Either both stop with the same error, or the
program without its return is the list of directly compiled statements, and its returns, all at the root, are the one
that direct compilation carries, if any. With returns in place, the lists also say where it stands: right after the root
statement that it was reached in. -/
theorem build_nested_direct (d : Document) (o : Options) (ho : o.placement = .nested) :
    Agree (fun p q => p.body.filter (fun s => !s.isReturn) = q.1 ∧ p.body.filterMap returned? = q.2.toList ∧
        returns p.body = q.2.toList) (d.build o).outcome (d.buildDirect o.httpClient fun _ => []) ∧
      Agree (fun p q => p.body = layout Placement.nested.keeps q.1) (d.build o).outcome
        (d.buildDirect o.httpClient Node.inPlace) := by
  have hbuild := build_agrees d o
  rw [ho] at hbuild
  refine ⟨hbuild.trans (d.buildDirect_splits o.httpClient) ?_, hbuild⟩
  intro p q' q hdirect hbody hsplit
  obtain ⟨hpruned, hstate, -⟩ := hsplit
  have hall : returns q'.1 = q.2.toList := by rw [hstate, Document.returns_buildDirect hdirect]
  refine ⟨?_, ?_, ?_⟩
  · rw [hbody, filter_not_isReturn_layout, hpruned]
  · rw [hbody, filterMap_returned?_layout _ rfl, hall]
  · rw [hbody, returns_layout _ rfl, hall]

/-- a loop whose child ends the flow, and after the loop an assignment and an end without an output -/
def earlyEnd : Document where
  nodes := [⟨"s", .start, [], []⟩, ⟨"l", .loop, [("loopArray", .str "$xs"), ("currentItemName", .str "x")], ["c"]⟩,
    ⟨"c", .conditional, [("expression", .str "$x === $last")], []⟩, ⟨"e", .finish, [("output", .str "$x")], []⟩,
    ⟨"a", .setVariable, [("key", .str "y"), ("value", .str "$x")], []⟩, ⟨"f", .finish, [], []⟩]
  edges := [⟨"s", "l", none⟩, ⟨"l", "a", none⟩, ⟨"c", "e", some true⟩, ⟨"a", "f", none⟩]

/-- the tree of `earlyEnd` with nested conditionals: the return is between the loop and the assignment -/
def earlyEndTree : Program :=
  ⟨[.forEach "x" (.identifier "xs")
      [.conditional (.binary .strictEqual (.identifier "x") (.identifier "last")) [] []],
    .ret (.identifier "x"), .expression (.assignment (.identifier "y") (.identifier "x"))]⟩

theorem build_earlyEnd : (earlyEnd.build {}).outcome = .ok earlyEndTree := by cbv

theorem build_nested_direct_earlyEnd :
    ({} : Options).placement = .nested ∧ (earlyEnd.build {}).outcome = .ok earlyEndTree ∧
      Agree (fun p q => p.body.filter (fun s => !s.isReturn) = q.1 ∧ p.body.filterMap returned? = q.2.toList ∧
        returns p.body = q.2.toList) (earlyEnd.build {}).outcome (earlyEnd.buildDirect "axios" fun _ => []) :=
  ⟨rfl, build_earlyEnd, (build_nested_direct earlyEnd {} rfl).1⟩

end Flowchart
