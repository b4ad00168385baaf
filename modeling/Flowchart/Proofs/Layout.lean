/-
Where the statements of a tree are put.

A flow is compiled as if every statement stood where it is reached. Some statements do not stay there: a return always
goes to the root, and a conditional does so when conditionals are hoisted. `keep` says which kinds stay. `prune` removes
the others from the blocks inside a statement, at all depths, and `layout` puts each of them at the root, right after
the root statement that it was reached in, in the order of the walk.

- `prune_prune`, `walkAll_pruneAll`: pruning twice, and what the walk of a pruned tree visits.
- `keep_of_mem_inside`: after pruning, only statements that stay are inside a block.
- `layout_perm`: `layout` loses no statement and duplicates none.
-/
import Flowchart.Build
import Mathlib.Tactic

namespace Flowchart

/-- the kinds of statements that stay in the block that they are reached for -/
def Placement.keeps : Placement → StatementKind → Bool
  | _, .ret => false
  | .nested, .conditional => true
  | .hoisted, .conditional => false
  | _, _ => true

@[simp] theorem Placement.keeps_ret (placement : Placement) : placement.keeps .ret = false := by
  cases placement <;> rfl

@[simp] theorem Placement.keeps_forEach (placement : Placement) : placement.keeps .forEach = true := by
  cases placement <;> rfl

theorem Placement.nested_keeps (kind : StatementKind) : Placement.nested.keeps kind = decide (kind ≠ .ret) := by
  cases kind <;> rfl

namespace Statement

/-- the statement has no blocks -/
def isLeaf : Statement → Bool
  | .conditional _ _ _ => false
  | .forEach _ _ _ => false
  | _ => true

/-- Induction over all statements of a list, those inside its blocks included. -/
theorem forest_induction {motive : List Statement → Prop} (nil : motive [])
    (leaf : ∀ s rest, s.isLeaf → motive rest → motive (s :: rest))
    (conditional : ∀ test consequent alternate rest, motive consequent → motive alternate → motive rest →
      motive (.conditional test consequent alternate :: rest))
    (forEach : ∀ item iterable body rest, motive body → motive rest → motive (.forEach item iterable body :: rest))
    (ts : List Statement) : motive ts :=
  @Statement.rec_1 (fun s => ∀ rest, motive rest → motive (s :: rest)) motive
    (fun value rest => leaf (.expression value) rest rfl) (fun name init rest => leaf (.declaration name init) rest rfl)
    (fun test c a hc ha rest => conditional test c a rest hc ha)
    (fun item iterable body hb rest => forEach item iterable body rest hb)
    (fun argument rest => leaf (.ret argument) rest rfl) nil (fun _ rest hs h => hs rest h) ts

/-! ## What is inside a statement -/

/-- the statements inside the blocks of a statement, depth first -/
def inside : Statement → List Statement
  | .conditional _ consequent alternate => walkAll consequent ++ walkAll alternate
  | .forEach _ _ body => walkAll body
  | _ => []

/-- the statement is a conditional -/
def isConditional (s : Statement) : Bool := s.kind = .conditional

/-- what the statement returns, if it does -/
def returned? : Statement → Option Expression
  | .ret argument => some argument
  | _ => none

/-- what is returned anywhere in these statements, depth first -/
def returns (ts : List Statement) : List Expression := (walkAll ts).filterMap returned?

theorem isReturn_eq (s : Statement) : s.isReturn = decide (s.kind = .ret) := by
  cases s <;> rfl

theorem nested_keeps_kind (s : Statement) : Placement.nested.keeps s.kind = !s.isReturn := by
  cases s <;> rfl

theorem walk_eq (s : Statement) : s.walk = s :: s.inside := by
  cases s <;> simp [walk, inside]

@[simp] theorem walkAll_nil : walkAll [] = [] := by rw [walkAll]

@[simp] theorem walkAll_cons (s : Statement) (ts : List Statement) :
    walkAll (s :: ts) = s :: (s.inside ++ walkAll ts) := by
  rw [walkAll, walk_eq, List.cons_append]

@[simp] theorem walkAll_append (ts us : List Statement) : walkAll (ts ++ us) = walkAll ts ++ walkAll us := by
  induction ts with
  | nil => simp
  | cons s ts ih => simp [ih]

@[simp] theorem returns_nil : returns [] = [] := by simp [returns]

@[simp] theorem returns_append (ts us : List Statement) : returns (ts ++ us) = returns ts ++ returns us := by
  simp [returns]

theorem returns_cons (s : Statement) (ts : List Statement) : returns (s :: ts) = returns [s] ++ returns ts :=
  returns_append [s] ts

@[simp] theorem returns_conditional (test : Expression) (consequent alternate : List Statement) :
    returns [.conditional test consequent alternate] = returns consequent ++ returns alternate := by
  simp [returns, inside, List.filterMap_cons, returned?]

@[simp] theorem returns_forEach (item : String) (iterable : Expression) (body : List Statement) :
    returns [.forEach item iterable body] = returns body := by
  simp [returns, inside, List.filterMap_cons, returned?]

@[simp] theorem returns_ret (argument : Expression) : returns [.ret argument] = [argument] := by
  simp [returns, returned?, inside]

theorem returns_leaf {s : Statement} (hs : s.isLeaf) (hr : s.kind ≠ .ret) : returns [s] = [] := by
  cases s <;> simp_all [returns, returned?, inside, isLeaf, kind]

theorem isLeaf_of_kind {s : Statement} (h : s.kind ≠ .conditional ∧ s.kind ≠ .forEach) : s.isLeaf := by
  cases s <;> simp_all [isLeaf, kind]

theorem inside_leaf {s : Statement} (h : s.isLeaf) : s.inside = [] := by
  cases s <;> simp_all [inside, isLeaf]

/-! ## Pruning -/

mutual

/-- the statement without the statements inside it that do not stay -/
def prune (keep : StatementKind → Bool) : Statement → Statement
  | .expression value => .expression value
  | .declaration name init => .declaration name init
  | .conditional test consequent alternate =>
    .conditional test (pruneAll keep consequent) (pruneAll keep alternate)
  | .forEach item iterable body => .forEach item iterable (pruneAll keep body)
  | .ret argument => .ret argument

/-- the statements that stay, each without those inside it that do not -/
def pruneAll (keep : StatementKind → Bool) : List Statement → List Statement
  | [] => []
  | s :: rest => if keep s.kind then prune keep s :: pruneAll keep rest else pruneAll keep rest

end

variable (keep : StatementKind → Bool)

theorem pruneAll_eq (ts : List Statement) : pruneAll keep ts = (ts.filter fun s => keep s.kind).map (prune keep) := by
  induction ts with
  | nil => rw [pruneAll]; rfl
  | cons s ts ih =>
    rw [pruneAll, List.filter_cons]
    split <;> simp [ih]

@[simp] theorem pruneAll_nil : pruneAll keep [] = [] := by rw [pruneAll]

@[simp] theorem pruneAll_append (ts us : List Statement) :
    pruneAll keep (ts ++ us) = pruneAll keep ts ++ pruneAll keep us := by
  simp [pruneAll_eq]

@[simp] theorem kind_prune (s : Statement) : (s.prune keep).kind = s.kind := by
  cases s <;> simp [prune, kind]

@[simp] theorem returned?_prune (s : Statement) : (s.prune keep).returned? = s.returned? := by
  cases s <;> simp [prune, returned?]

theorem prune_leaf {s : Statement} (h : s.isLeaf) : s.prune keep = s := by
  cases s <;> simp_all [prune, isLeaf]

/-- pruning twice -/
theorem pruneAll_pruneAll (keep' : StatementKind → Bool) (ts : List Statement) :
    pruneAll keep (pruneAll keep' ts) = pruneAll (fun k => keep k && keep' k) ts := by
  have hcons : ∀ s rest, (s.prune keep').prune keep = s.prune (fun k => keep k && keep' k) →
      pruneAll keep (pruneAll keep' rest) = pruneAll (fun k => keep k && keep' k) rest →
      pruneAll keep (pruneAll keep' (s :: rest)) = pruneAll (fun k => keep k && keep' k) (s :: rest) := by
    intro s rest hs hrest
    by_cases h' : keep' s.kind = true <;> by_cases h : keep s.kind = true <;> simp [pruneAll, h, h', hs, hrest]
  induction ts using forest_induction with
  | nil => simp
  | leaf s rest hs ih => exact hcons _ _ (by simp [prune_leaf, hs]) ih
  | conditional test consequent alternate rest ihc iha ih => exact hcons _ _ (by simp [prune, ihc, iha]) ih
  | forEach item iterable body rest ihb ih => exact hcons _ _ (by simp [prune, ihb]) ih

theorem prune_prune (keep' : StatementKind → Bool) (s : Statement) :
    (s.prune keep').prune keep = s.prune fun k => keep k && keep' k := by
  cases s <;> simp [prune, pruneAll_pruneAll]

theorem mem_walkAll_pruneAll_cons {s t : Statement} {rest : List Statement}
    (h : t ∈ walkAll (pruneAll keep (s :: rest))) :
    keep s.kind = true ∧ (t = s.prune keep ∨ t ∈ (s.prune keep).inside) ∨ t ∈ walkAll (pruneAll keep rest) := by
  rw [pruneAll] at h
  split at h
  · rename_i hk
    simpa [hk, or_assoc] using h
  · exact Or.inr h

/-- after pruning, only statements that stay are found -/
theorem keep_of_mem_walkAll (ts : List Statement) : ∀ t ∈ walkAll (pruneAll keep ts), keep t.kind = true := by
  induction ts using forest_induction with
  | nil => simp
  | leaf s rest hs ih =>
    intro t ht
    rcases mem_walkAll_pruneAll_cons keep ht with ⟨hk, rfl | ht⟩ | ht
    · simpa using hk
    · simp [prune_leaf keep hs, inside_leaf hs] at ht
    · exact ih t ht
  | conditional test consequent alternate rest ihc iha ih =>
    intro t ht
    rcases mem_walkAll_pruneAll_cons keep ht with ⟨hk, rfl | ht⟩ | ht
    · simpa using hk
    · rcases List.mem_append.1 ht with ht | ht
      · exact ihc t ht
      · exact iha t ht
    · exact ih t ht
  | forEach item iterable body rest ihb ih =>
    intro t ht
    rcases mem_walkAll_pruneAll_cons keep ht with ⟨hk, rfl | ht⟩ | ht
    · simpa using hk
    · exact ihb t ht
    · exact ih t ht

theorem keep_of_mem_inside {s t : Statement} (h : t ∈ (s.prune keep).inside) : keep t.kind = true := by
  cases s with
  | conditional test consequent alternate =>
    rcases List.mem_append.1 h with h | h
    · exact keep_of_mem_walkAll keep consequent t h
    · exact keep_of_mem_walkAll keep alternate t h
  | forEach item iterable body => exact keep_of_mem_walkAll keep body t h
  | _ => simp [prune, inside] at h

/-- When only statements without blocks are removed, the walk of a pruned tree visits the others, pruned. -/
theorem walkAll_pruneAll (hkeep : ∀ s : Statement, keep s.kind = false → s.isLeaf) (ts : List Statement) :
    walkAll (pruneAll keep ts) = ((walkAll ts).filter fun t => keep t.kind).map (prune keep) := by
  have hcons : ∀ (s : Statement) rest,
      (s.prune keep).inside = (s.inside.filter fun t => keep t.kind).map (prune keep) →
      walkAll (pruneAll keep rest) = ((walkAll rest).filter fun t => keep t.kind).map (prune keep) →
      walkAll (pruneAll keep (s :: rest)) = ((walkAll (s :: rest)).filter fun t => keep t.kind).map (prune keep) := by
    intro s rest hs hrest
    by_cases h : keep s.kind = true
    · simp [pruneAll, h, hs, hrest]
    · simp only [Bool.not_eq_true] at h
      simp [pruneAll, h, hrest, inside_leaf (hkeep s h)]
  induction ts using forest_induction with
  | nil => simp
  | leaf s rest hs ih => exact hcons _ _ (by simp [prune_leaf keep hs, inside_leaf hs]) ih
  | conditional test consequent alternate rest ihc iha ih => exact hcons _ _ (by simp [prune, inside, ihc, iha]) ih
  | forEach item iterable body rest ihb ih => exact hcons _ _ (by simp [prune, inside, ihb]) ih

theorem inside_prune (hkeep : ∀ s : Statement, keep s.kind = false → s.isLeaf) (s : Statement) :
    (s.prune keep).inside = (s.inside.filter fun t => keep t.kind).map (prune keep) := by
  cases s <;> simp [prune, inside, walkAll_pruneAll keep hkeep]

/-! ## The layout -/

/-- the statements inside a statement that do not stay there -/
def displaced (s : Statement) : List Statement := (s.inside.filter fun t => !keep t.kind).map (prune keep)

/-- the statements anywhere in a list that do not stay there -/
def displacedAll (ts : List Statement) : List Statement := ((walkAll ts).filter fun t => !keep t.kind).map (prune keep)

/-- the root of the finished tree: each statement, and then the statements inside it that do not stay there -/
def layout (ts : List Statement) : List Statement := ts.flatMap fun s => s.prune keep :: s.displaced keep

@[simp] theorem displacedAll_nil : displacedAll keep [] = [] := by simp [displacedAll]

@[simp] theorem displacedAll_append (ts us : List Statement) :
    displacedAll keep (ts ++ us) = displacedAll keep ts ++ displacedAll keep us := by
  simp [displacedAll]

theorem displacedAll_cons (s : Statement) (ts : List Statement) :
    displacedAll keep (s :: ts) =
      (if keep s.kind then [] else [s.prune keep]) ++ (s.displaced keep ++ displacedAll keep ts) := by
  by_cases h : keep s.kind = true <;> simp [displacedAll, displaced, h]

theorem displaced_leaf {s : Statement} (h : s.isLeaf) : s.displaced keep = [] := by
  simp [displaced, inside_leaf h]

theorem displaced_conditional (test : Expression) (consequent alternate : List Statement) :
    (conditional test consequent alternate).displaced keep =
      displacedAll keep consequent ++ displacedAll keep alternate := by
  simp [displaced, displacedAll, inside]

theorem displaced_forEach (item : String) (iterable : Expression) (body : List Statement) :
    (forEach item iterable body).displaced keep = displacedAll keep body := rfl

@[simp] theorem layout_nil : layout keep [] = [] := rfl

@[simp] theorem layout_cons (s : Statement) (ts : List Statement) :
    layout keep (s :: ts) = s.prune keep :: (s.displaced keep ++ layout keep ts) := by
  simp [layout]

@[simp] theorem layout_append (ts us : List Statement) : layout keep (ts ++ us) = layout keep ts ++ layout keep us := by
  simp [layout]

/-- at the root, what stays is the pruned tree -/
theorem filter_layout (ts : List Statement) : (layout keep ts).filter (fun s => keep s.kind) = pruneAll keep ts := by
  have hdisplaced : ∀ s : Statement, (s.displaced keep).filter (fun s => keep s.kind) = [] := by
    intro s
    rw [List.filter_eq_nil_iff]
    intro t ht
    obtain ⟨u, hu, rfl⟩ := List.mem_map.1 ht
    simpa using (List.mem_filter.1 hu).2
  induction ts with
  | nil => simp
  | cons s ts ih => by_cases h : keep s.kind = true <;> simp [pruneAll, h, hdisplaced, ih]

/-- every statement of the root is a pruned one -/
theorem eq_prune_of_mem_layout {ts : List Statement} {s : Statement} (h : s ∈ layout keep ts) :
    ∃ t : Statement, s = t.prune keep := by
  simp only [layout, List.mem_flatMap, List.mem_cons, displaced, List.mem_map] at h
  obtain ⟨t, -, rfl | ⟨u, -, rfl⟩⟩ := h
  · exact ⟨t, rfl⟩
  · exact ⟨u, rfl⟩

/-- the blocks of the finished tree hold only statements that stay -/
theorem keep_of_mem_inside_layout {ts : List Statement} {s t : Statement} (hs : s ∈ layout keep ts)
    (ht : t ∈ s.inside) : keep t.kind = true := by
  obtain ⟨u, rfl⟩ := eq_prune_of_mem_layout keep hs
  exact keep_of_mem_inside keep ht

/-! ## Returns -/

theorem kind_of_returned? {s : Statement} (h : s.returned? ≠ none) : s.kind = .ret := by
  cases s <;> simp_all [returned?, kind]

theorem filterMap_returned?_displaced (hk : keep .ret = false) (s : Statement) :
    (s.displaced keep).filterMap returned? = s.inside.filterMap returned? := by
  rw [displaced, List.filterMap_map]
  induction s.inside with
  | nil => rfl
  | cons t ts ih =>
    by_cases ht : t.returned? = none
    · by_cases h : keep t.kind = true <;> simp [h, ht, ← ih]
    · have hkind := kind_of_returned? ht
      simp [hkind, hk, List.filterMap_cons, ← ih]

/-- the returns at the root of the finished tree are all returns of the flow, in order -/
theorem filterMap_returned?_layout (hk : keep .ret = false) (ts : List Statement) :
    (layout keep ts).filterMap returned? = returns ts := by
  induction ts with
  | nil => simp
  | cons s ts ih =>
    simp only [layout_cons, returns, walkAll_cons, List.filterMap_cons, List.filterMap_append, returned?_prune,
      filterMap_returned?_displaced keep hk] at ih ⊢
    rw [ih]

/-- no block of the finished tree holds a return -/
theorem returns_layout (hk : keep .ret = false) (ts : List Statement) : returns (layout keep ts) = returns ts := by
  have hroot : ∀ us : List Statement, (∀ s ∈ us, ∀ t ∈ s.inside, keep t.kind = true) →
      returns us = us.filterMap returned? := by
    intro us hus
    induction us with
    | nil => simp
    | cons s us ih =>
      have hs : s.inside.filterMap returned? = [] := by
        rw [List.filterMap_eq_nil_iff]
        intro t ht
        by_contra hr
        have := hus s List.mem_cons_self t ht
        rw [kind_of_returned? hr, hk] at this
        cases this
      have hus' := ih fun s' hs' => hus s' (List.mem_cons_of_mem s hs')
      simp only [returns, walkAll_cons, List.filterMap_cons, List.filterMap_append, hs, List.nil_append] at hus' ⊢
      rw [hus']
  rw [hroot _ fun s hs t ht => keep_of_mem_inside_layout keep hs ht, filterMap_returned?_layout keep hk]

/-! ## Nothing is lost -/

/-- the statement without what is inside it -/
def bare (s : Statement) : Statement := s.prune fun _ => false

@[simp] theorem bare_prune (s : Statement) : (s.prune keep).bare = s.bare := by
  simp [bare, prune_prune]

/-- What stays in the blocks and what does not are together the statements of the tree. -/
theorem pruneAll_displacedAll_perm (ts : List Statement) :
    ((walkAll (pruneAll keep ts) ++ walkAll (displacedAll keep ts)).map bare).Perm ((walkAll ts).map bare) := by
  classical
  have hcons : ∀ s rest, (((s.prune keep).inside ++ walkAll (s.displaced keep)).map bare).Perm (s.inside.map bare) →
      ((walkAll (pruneAll keep rest) ++ walkAll (displacedAll keep rest)).map bare).Perm ((walkAll rest).map bare) →
      ((walkAll (pruneAll keep (s :: rest)) ++ walkAll (displacedAll keep (s :: rest))).map bare).Perm
        ((walkAll (s :: rest)).map bare) := by
    intro s rest hs hrest
    rw [List.perm_iff_count] at hs hrest ⊢
    intro t
    specialize hs t
    specialize hrest t
    by_cases h : keep s.kind = true <;>
      simp [pruneAll, displacedAll_cons, h, List.count_cons] at hs hrest ⊢ <;> omega
  induction ts using forest_induction with
  | nil => simp
  | leaf s rest hs ih => exact hcons _ _ (by simp [prune_leaf, hs, displaced_leaf, inside_leaf]) ih
  | conditional test consequent alternate rest ihc iha ih =>
    refine hcons _ _ ?_ ih
    rw [displaced_conditional]
    rw [List.perm_iff_count] at ihc iha ⊢
    intro t
    specialize ihc t
    specialize iha t
    simp [prune, inside] at ihc iha ⊢
    omega
  | forEach item iterable body rest ihb ih => exact hcons _ _ (by simpa [prune, inside, displaced_forEach] using ihb) ih

/-- **The layout loses nothing.** The finished tree has the statements of the flow, each as often as the flow. -/
theorem layout_perm (ts : List Statement) : ((walkAll (layout keep ts)).map bare).Perm ((walkAll ts).map bare) := by
  classical
  induction ts with
  | nil => simp
  | cons s ts ih =>
    have hs := pruneAll_displacedAll_perm keep [s]
    rw [List.perm_iff_count] at hs ih ⊢
    intro t
    specialize hs t
    specialize ih t
    by_cases h : keep s.kind = true <;>
      simp [pruneAll, displacedAll_cons, h, List.count_cons] at hs ih ⊢ <;> omega

end Statement

end Flowchart
