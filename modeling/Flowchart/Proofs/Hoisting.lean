/-
Hoisted conditionals.

A flow can be compiled with conditionals where they are reached, or with all of them at the root. The two runs write
into different blocks in a different order. Both are layouts of the same directly compiled lists, so they can be
compared as lists: the hoisted program is the hoisting of the nested one.

- `hoist`: the root statements of a tree and all conditionals inside them, in the order of the walk, each without the
  conditionals inside it.
- `build_hoisted`: either both placements stop with the same error, or the second program is the hoisting of the first,
  with the same return (`Hoists`).
-/
import Flowchart.Proofs.Refinement

namespace Flowchart

open Statement

/-- all kinds but conditionals -/
def unconditional (kind : StatementKind) : Bool := kind ≠ .conditional

/-- the root statements and all conditionals inside them, in the order of the walk, each without the conditionals inside
it -/
def hoist (body : List Statement) : List Statement :=
  body.flatMap fun s => (s :: s.inside.filter isConditional).map (prune unconditional)

/-- the second program is the hoisting of the first -/
structure Hoists (p q : Program) : Prop where
  /-- the returns of the first program are at its root -/
  returns_left : returns p.body = p.body.filterMap returned?
  /-- the returns of the second program are at its root -/
  returns_right : returns q.body = q.body.filterMap returned?
  /-- both return the same -/
  returns_eq : q.body.filterMap returned? = p.body.filterMap returned?
  /-- there is at most one return -/
  returns_le : (returns p.body).length ≤ 1
  /-- without the return, the root of the second program is the hoisting of the first -/
  body : q.body.filter (fun s => !s.isReturn) = hoist (p.body.filter fun s => !s.isReturn)
  /-- no conditional of the second program is inside a block -/
  flat : ∀ s ∈ q.body, ∀ t ∈ s.inside, ¬t.isConditional
  /-- no statement is lost or duplicated -/
  perm : (q.walk.map bare).Perm (p.walk.map bare)

theorem hoisted_keeps (k : StatementKind) :
    Placement.hoisted.keeps k = (unconditional k && Placement.nested.keeps k) := by
  cases k <;> rfl

theorem isLeaf_of_nested_keeps (s : Statement) (h : Placement.nested.keeps s.kind = false) : s.isLeaf := by
  cases s <;> first | rfl | cases h

/-- the conditionals inside a statement, with and without the returns around them -/
theorem filter_isConditional_inside (s : Statement) :
    (s.prune Placement.nested.keeps).inside.filter isConditional =
      (s.inside.filter isConditional).map (prune Placement.nested.keeps) := by
  rw [inside_prune _ isLeaf_of_nested_keeps, List.filter_map, List.filter_filter]
  congr 1
  refine List.filter_congr fun t _ => ?_
  cases t <;> simp [isConditional, kind, prune, Placement.keeps]

/-- what hoisting moves out of a statement, apart from returns, are its conditionals -/
theorem filter_not_isReturn_displaced (s : Statement) :
    (s.displaced Placement.hoisted.keeps).filter (fun t => !t.isReturn) =
      (s.inside.filter isConditional).map (prune Placement.hoisted.keeps) := by
  rw [displaced, List.filter_map, List.filter_filter]
  congr 1
  refine List.filter_congr fun t _ => ?_
  cases t <;> simp [isConditional, isReturn, kind, prune, Placement.keeps]

/-- a statement pruned of returns, and then of conditionals -/
theorem prune_nested_prune (s : Statement) :
    (s.prune Placement.nested.keeps).prune unconditional = s.prune Placement.hoisted.keeps := by
  rw [prune_prune]
  exact congrArg (s.prune ·) (funext fun k => (hoisted_keeps k).symm)

/-- without returns, the hoisted layout is the hoisting of the pruned tree -/
theorem filter_not_isReturn_layout_hoisted (ts : List Statement) :
    (layout Placement.hoisted.keeps ts).filter (fun s => !s.isReturn) = hoist (pruneAll Placement.nested.keeps ts) := by
  induction ts with
  | nil => rw [pruneAll_nil]; rfl
  | cons s ts ih =>
    rw [layout_cons, List.filter_cons, List.filter_append, filter_not_isReturn_displaced, ih, pruneAll]
    by_cases hs : s.isReturn
    · have hkind : s.kind = .ret := by simpa [isReturn_eq] using hs
      have hleaf : s.isLeaf := isLeaf_of_kind (by simp [hkind])
      simp [isReturn_eq, hkind, inside_leaf hleaf]
    · have hkind : s.kind ≠ .ret := by simpa [isReturn_eq] using hs
      simp [isReturn_eq, hkind, Placement.nested_keeps, hoist, prune_nested_prune, filter_isConditional_inside]

/-- **Hoisted conditionals.** For all documents and options, the two placements either stop with the same error, or give
two programs of which the second is the hoisting of the first. -/
theorem build_hoisted (d : Document) (o : Options) :
    Agree Hoists (d.build { o with placement := .nested }).outcome
      (d.build { o with placement := .hoisted }).outcome := by
  refine (build_agrees d { o with placement := .nested }).trans (build_agrees d { o with placement := .hoisted }) ?_
  intro p q p' hdirect hp hp'
  have hreturns := Document.returns_buildDirect hdirect
  have hroot : p.body.filterMap returned? = returns q.1 := by rw [hp, filterMap_returned?_layout _ rfl]
  have hroot' : p'.body.filterMap returned? = returns q.1 := by rw [hp', filterMap_returned?_layout _ rfl]
  have hall : returns p.body = returns q.1 := by rw [hp, returns_layout _ rfl]
  have hall' : returns p'.body = returns q.1 := by rw [hp', returns_layout _ rfl]
  refine ⟨hall.trans hroot.symm, hall'.trans hroot'.symm, hroot'.trans hroot.symm, ?_, ?_, ?_, ?_⟩
  · rw [hall, hreturns]
    exact Option.length_toList_le
  · rw [hp, hp', filter_not_isReturn_layout, filter_not_isReturn_layout_hoisted]
  · intro s hs t ht hconditional
    rw [hp'] at hs
    have hkeep := keep_of_mem_inside_layout _ hs ht
    rw [show t.kind = .conditional by simpa [isConditional] using hconditional] at hkeep
    cases hkeep
  · have hperm := (layout_perm Placement.hoisted.keeps q.1).trans (layout_perm Placement.nested.keeps q.1).symm
    rw [← hp, ← hp'] at hperm
    exact hperm

end Flowchart
