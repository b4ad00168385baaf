/-
What a compiled function returns, and where.

The first end that the traversal comes to is the return of the function, and there is no other. Wherever it is reached,
the return is at the root. When conditionals are nested, it comes after the statement of the main line that it is
reached in. That is the last statement of the root, unless it is a loop and the main line goes on after it.

- `Along.split_loop`, `Along.last`: which statement of a main line holds the return.
- `build_return`: all of this for the tree of a document (`SingleReturn`).
-/
import Flowchart.Proofs.LaterEnds
import Flowchart.Proofs.MainLine

namespace Flowchart

open Statement

/-! ## Nested layout -/

namespace Statement

/-- when conditionals are nested, only returns are displaced -/
theorem displaced_nested (s : Statement) :
    s.displaced Placement.nested.keeps = (s.inside.filterMap returned?).map .ret := by
  unfold displaced
  induction s.inside with
  | nil => rfl
  | cons t ts ih =>
    rw [List.filter_cons, List.filterMap_cons]
    cases t with
    | ret argument => exact congrArg (.ret argument :: ·) ih
    | _ => exact ih

theorem length_layout_nested {ts : List Statement} (h : returns ts = []) :
    (layout Placement.nested.keeps ts).length = ts.length := by
  induction ts with
  | nil => rfl
  | cons s ts ih =>
    rw [returns_cons, List.append_eq_nil_iff] at h
    have hinside : s.inside.filterMap returned? = [] := by
      have hs := h.1
      simp only [returns, walkAll_cons, walkAll_nil, List.append_nil, List.filterMap_eq_nil_iff,
        List.forall_mem_cons] at hs
      exact List.filterMap_eq_nil_iff.2 hs.2
    simp [displaced_nested, hinside, ih h.2]

/-- the statement that holds the return, and the return -/
theorem layout_nested_singleton {s : Statement} {a : Expression} (h : returns [s] = [a]) :
    ∃ pre, layout Placement.nested.keeps [s] = pre ++ [ret a] := by
  rw [layout_cons, layout_nil, List.append_nil, displaced_nested]
  simp only [returns, walkAll_cons, walkAll_nil, List.append_nil, List.filterMap_cons] at h
  cases s with
  | ret argument =>
    simp [returned?, inside] at h
    simp [inside, prune, h]
  | _ =>
    simp only [returned?] at h
    exact ⟨[_], by rw [h]; rfl⟩

end Statement

/-! ## The return of a main line -/

namespace Node.Puts

variable {n : Node} {client : String} {first second part : List Statement}

theorem length_le (h : n.Puts client first second part) : part.length ≤ 1 := by
  cases h <;> simp

theorem length_eq (h : n.Puts client first second part) (hn : ¬n.isEnd) :
    part.length = if n.kind ≠ .start then 1 else 0 := by
  cases h <;> simp_all [isEnd_iff]

theorem of_loop (h : n.Puts client first second part) (hn : n.kind = .loop) :
    ∃ iterable item, n.loopHead.outcome = .ok (iterable, item) ∧ part = [.forEach item iterable first] := by
  cases h with
  | loop _ hl => exact ⟨_, _, hl, rfl⟩
  | _ => simp_all

theorem map_kind (h : n.Puts client first second part) :
    (part.filter fun s => !s.isReturn).map Statement.kind = n.kind.statement?.toList := by
  cases h with
  | assignment hk h => simp [hk, kind_assignment h, NodeKind.statement?, isReturn_eq]
  | call hk h => simp [hk, kind_httpCall h, NodeKind.statement?, isReturn_eq]
  | _ => simp_all [NodeKind.statement?, isReturn_eq, Statement.kind]

end Node.Puts

namespace Along

variable {client : String} {r r' : Option Expression} {line : List (Node × List Node)} {ts : List Statement}

/-- at the root, the main line adds one statement for each of its nodes, except start nodes and ends -/
theorem map_kind (h : Along client r line ts r') :
    (ts.filter fun s => !s.isReturn).map kind = line.filterMap fun x => x.1.kind.statement? := by
  induction h with
  | nil r => rfl
  | @cons r r1 r' n inner line first second part rest hputs _ _ _ ih =>
    rw [List.filter_append, List.map_append, hputs.map_kind, ih]
    cases h : n.kind.statement? <;> simp [h]

/-- The return is in the first loop with an end inside it. The statements before that are as many as the nodes before
it, start nodes aside. -/
theorem split_loop {before after : List (Node × List Node)} {m : Node} {inner : List Node}
    (h : Along client none (before ++ (m, inner) :: after) ts r') (hbefore : ∀ x ∈ before, ¬(x.1 :: x.2).any Node.isEnd)
    (hm : m.kind = .loop) (hinner : inner.any Node.isEnd) :
    ∃ pre iterable item body post a, ts = pre ++ forEach item iterable body :: post ∧
      m.loopHead.outcome = .ok (iterable, item) ∧ returns pre = [] ∧ returns body = [a] ∧
      pre.length = before.countP fun x => x.1.kind ≠ .start := by
  induction before generalizing ts with
  | nil =>
    cases h with
    | @cons _ r1 _ _ _ _ first second part rest hputs hreturns hends h =>
      obtain ⟨iterable, item, hl, rfl⟩ := hputs.of_loop hm
      have hsome : r1.isSome = true := by simp [hends, hinner]
      obtain ⟨a, rfl⟩ := Option.isSome_iff_exists.1 hsome
      refine ⟨[], iterable, item, first, rest, a, rfl, hl, returns_nil, ?_, rfl⟩
      simpa using hreturns
  | cons x before ih =>
    obtain ⟨n, inner'⟩ := x
    cases h with
    | @cons _ r1 _ _ _ _ first second part rest hputs hreturns hends h =>
      have hx : ((n :: inner').any Node.isEnd) = false := by simpa using hbefore (n, inner') List.mem_cons_self
      have hn : ¬n.isEnd := by
        intro hn
        simp [hn] at hx
      have hnone : r1 = none := by simpa [hx] using hends
      subst hnone
      obtain ⟨pre, iterable, item, body, post, a, rfl, hl, hpre, hbody, hlength⟩ :=
        ih h fun y hy => hbefore y (List.mem_cons_of_mem _ hy)
      have hpart : returns part = [] := by simpa using hreturns
      refine ⟨part ++ pre, iterable, item, body, post, a, (List.append_assoc _ _ _).symm, hl, ?_, hbody, ?_⟩
      · rw [returns_append, hpart, hpre]
        rfl
      · rw [List.length_append, hputs.length_eq hn, hlength, List.countP_cons, Nat.add_comm]
        simp

/-- the return is in the last statement when no node but the last one has an end inside it -/
theorem last (h : Along client none line ts r') (hline : ∀ x ∈ line.dropLast, ¬(x.1 :: x.2).any Node.isEnd)
    (hreturns : returns ts ≠ []) : ∃ pre s, ts = pre ++ [s] ∧ returns [s] = returns ts := by
  generalize hr : (none : Option Expression) = r at h
  induction h with
  | nil r => exact absurd returns_nil hreturns
  | @cons r r1 r' n inner line first second part rest hputs hpart hends h ih =>
    subst hr
    by_cases hempty : line = []
    · subst hempty
      cases h
      rw [List.append_nil] at hreturns ⊢
      have hlength := hputs.length_le
      match part, hlength with
      | [], _ => exact absurd returns_nil hreturns
      | [s], _ => exact ⟨[], s, rfl, rfl⟩
    · rw [List.dropLast_cons_of_ne_nil hempty] at hline
      have hx : ((n :: inner).any Node.isEnd) = false := by simpa using hline (n, inner) List.mem_cons_self
      have hnone : r1 = none := by simpa [hx] using hends
      have hpart' : returns part = [] := by simpa [hnone] using hpart
      rw [returns_append, hpart', List.nil_append] at hreturns ⊢
      obtain ⟨pre, s, rfl, hs⟩ := ih (fun y hy => hline y (List.mem_cons_of_mem _ hy)) hreturns hnone.symm
      exact ⟨part ++ pre, s, (List.append_assoc _ _ _).symm, hs⟩

end Along

/-! ## Documents -/

/-- the kinds of all statements in a list but returns, depth first -/
def Statement.kinds (ts : List Statement) : List StatementKind := ((walkAll ts).filter fun s => !s.isReturn).map kind

theorem Statement.kinds_eq_bares (ts : List Statement) : kinds ts = (bares ts).map kind := by
  have hkind : kind ∘ bare = kind := funext fun s => kind_prune _ s
  rw [kinds, bares, List.map_map, hkind]

theorem Statement.bares_layout_perm (keep : StatementKind → Bool) (ts : List Statement) :
    (bares (layout keep ts)).Perm (bares ts) := by
  have hreturn : (fun s => !isReturn s) ∘ bare = fun s => !isReturn s :=
    funext fun s => by simp [isReturn_eq, bare]
  have hbares (us : List Statement) : bares us = ((walkAll us).map bare).filter fun s => !s.isReturn := by
    rw [List.filter_map, hreturn, bares]
  rw [hbares, hbares]
  exact (layout_perm keep ts).filter _

theorem Node.map_kind_statement? {n : Node} (h : n.readable) (client : String) :
    (n.statement? client).map Statement.kind = n.kind.statement? := by
  by_cases hstart : n.kind = .start
  · rw [statement?, hstart]
    rfl
  by_cases hend : n.isEnd
  · rw [statement?, isEnd_iff.1 hend]
    rfl
  · obtain ⟨s, hs⟩ : ∃ s, n.Adds client s := exists_adds h hstart fun hn => absurd hn hend
    rw [hs.statement?_eq hend, hs.kind_eq hend]
    rfl

namespace Document

/-- a loop of the main line with an end inside it -/
def endsInside (x : Node × List Node) : Bool := x.1.kind = .loop && x.2.any Node.isEnd

/-- the tree `p` of a document has one return at most, and it is where it should be -/
structure SingleReturn (d : Document) (o : Options) (p : Program) : Prop where
  /-- there is at most one return in the whole tree -/
  length_le : (returns p.body).length ≤ 1
  /-- no return is inside a block -/
  inside : ∀ s ∈ p.body, ∀ t ∈ s.inside, ¬t.isReturn
  /-- there is a return exactly when the traversal reaches an end -/
  exists_iff : returns p.body ≠ [] ↔ ∃ n, d.Reaches n ∧ n.isEnd
  /-- what is returned is the output of the first end -/
  argument : match d.firstEnd? with
    | none => returns p.body = []
    | some n => ∃ v a, n.property? ["output"] = some v ∧ Formula.ofJson v = .ok a ∧ returns p.body = [a]
  /-- the other statements are those of the nodes that are entered; ends add none -/
  statements : (kinds p.body).Perm (d.traversal.filterMap fun n => n.kind.statement?)
  /-- the properties of an end that is not the first one are not read -/
  later : ∀ n ∈ d.nodes, n.isEnd → (∀ m, d.firstEnd? = some m → m.id ≠ n.id) → ∀ properties,
    ((d.withProperties n.id properties).build o).outcome = .ok p
  /-- every node that is entered is on the main line or inside one of its nodes -/
  line : d.traversal = d.mainLine.flatMap fun x => x.1 :: x.2
  /-- nested: the root has the statements of the main line -/
  root : o.placement = .nested →
    (p.body.filter fun s => !s.isReturn).map kind = d.mainLine.filterMap fun x => x.1.kind.statement?
  /-- nested: when the first end is reached inside a loop of the main line, the return is right after that loop -/
  afterLoop : o.placement = .nested → ∀ before m inner after, d.mainLine = before ++ (m, inner) :: after →
    endsInside (m, inner) → (∀ x ∈ before, ¬endsInside x) →
    ∃ pre iterable item body a post, p.body = pre ++ forEach item iterable body :: ret a :: post ∧
      m.loopHead.outcome = .ok (iterable, item) ∧ pre.length = before.countP fun x => x.1.kind ≠ .start
  /-- nested: when it is not, the return is last -/
  last : o.placement = .nested → (∀ x ∈ d.mainLine, ¬endsInside x) → returns p.body ≠ [] →
    ∃ pre a, p.body = pre ++ [ret a]

variable {d : Document} {client : String} {q : List Statement × Option Expression}

theorem mainLine_of_starts {n : Node} (h : d.starts = [n]) : d.mainLine = d.lineFrom [] ⟨n.id, .follow⟩ := by
  simp [mainLine, h]

theorem along_of_buildDirect (h : d.buildDirect client Node.inPlace = .ok q) : Along client none d.mainLine q.1 q.2 := by
  obtain ⟨-, n, hn, h⟩ := buildDirect_eq_ok.1 h
  rw [mainLine_of_starts hn]
  exact along_of_direct h

theorem bares_of_buildDirect (h : d.buildDirect client Node.inPlace = .ok q) :
    bares q.1 = d.traversal.filterMap fun n => n.statement? client := by
  obtain ⟨-, n, hn, h⟩ := buildDirect_eq_ok.1 h
  rw [traversal_of_starts hn]
  exact bares_of_direct h

theorem kinds_of_buildDirect (h : d.buildDirect client Node.inPlace = .ok q) :
    kinds q.1 = d.traversal.filterMap fun n => n.kind.statement? := by
  obtain ⟨-, hreadable, -⟩ := traversal_of_buildDirect h
  rw [kinds_eq_bares, bares_of_buildDirect h, List.map_filterMap]
  exact List.filterMap_congr fun n hn => n.map_kind_statement? (hreadable n hn) client

theorem traversal_eq_mainLine (h : d.buildDirect client Node.inPlace = .ok q) :
    d.traversal = d.mainLine.flatMap fun x => x.1 :: x.2 := by
  obtain ⟨-, n, hn, -⟩ := buildDirect_eq_ok.1 h
  have hclear : d.Clear [] ⟨n.id, .follow⟩ := (traversal_of_buildDirect h).1 n (by simp [hn])
  rw [traversal_of_starts hn, mainLine_of_starts hn, hclear.tour_eq]

/-- a node of the main line that is not the last one has an end inside it only if it is a loop -/
theorem not_any_isEnd (h : d.buildDirect client Node.inPlace = .ok q) {x : Node × List Node}
    (hx : x ∈ d.mainLine.dropLast) (hends : ¬endsInside x) : ¬(x.1 :: x.2).any Node.isEnd := by
  obtain ⟨-, n, hn, -⟩ := buildDirect_eq_ok.1 h
  have hclear : d.Clear [] ⟨n.id, .follow⟩ := (traversal_of_buildDirect h).1 n (by simp [hn])
  rw [mainLine_of_starts hn] at hx
  obtain ⟨-, hfinish, hinner⟩ := hclear.of_mem_dropLast hx
  have hnode : x.1.isEnd = false := by simpa [Node.isEnd] using hfinish
  by_cases hloop : x.1.kind = .loop
  · simpa [endsInside, hloop, hnode] using hends
  · simp [hinner hloop, hnode]

/-- nested: the return is right after the loop that it is reached in -/
theorem layout_afterLoop (h : d.buildDirect client Node.inPlace = .ok q) {before after : List (Node × List Node)}
    {m : Node} {inner : List Node} (hline : d.mainLine = before ++ (m, inner) :: after)
    (hends : endsInside (m, inner)) (hbefore : ∀ x ∈ before, ¬endsInside x) :
    ∃ pre iterable item body a post,
      layout Placement.nested.keeps q.1 = pre ++ forEach item iterable body :: ret a :: post ∧
      m.loopHead.outcome = .ok (iterable, item) ∧ pre.length = before.countP fun x => x.1.kind ≠ .start := by
  obtain ⟨hm, hinner⟩ : m.kind = .loop ∧ inner.any Node.isEnd := by simpa [endsInside] using hends
  have halong := along_of_buildDirect h
  rw [hline] at halong
  have hbefore' : ∀ x ∈ before, ¬(x.1 :: x.2).any Node.isEnd := by
    intro x hx
    refine not_any_isEnd h ?_ (hbefore x hx)
    rw [hline, List.dropLast_append_of_ne_nil (List.cons_ne_nil _ _)]
    exact List.mem_append_left _ hx
  obtain ⟨pre, iterable, item, body, post, a, hq, hl, hpre, hbody, hlength⟩ :=
    halong.split_loop hbefore' hm hinner
  refine ⟨layout Placement.nested.keeps pre, iterable, item, pruneAll Placement.nested.keeps body, a,
    layout Placement.nested.keeps post, ?_, hl, ?_⟩
  · have hdisplaced : (forEach item iterable body).displaced Placement.nested.keeps = [.ret a] := by
      rw [displaced_nested, inside, ← returns, hbody]
      rfl
    rw [hq, layout_append, layout_cons, hdisplaced, prune]
    rfl
  · rw [length_layout_nested hpre, hlength]

/-- nested: the return is last, unless it is reached in a loop -/
theorem layout_last (h : d.buildDirect client Node.inPlace = .ok q) (hends : ∀ x ∈ d.mainLine, ¬endsInside x)
    (hreturns : returns q.1 ≠ []) : ∃ pre a, layout Placement.nested.keeps q.1 = pre ++ [ret a] := by
  have hline : ∀ x ∈ d.mainLine.dropLast, ¬(x.1 :: x.2).any Node.isEnd :=
    fun x hx => not_any_isEnd h hx (hends x (List.mem_of_mem_dropLast hx))
  obtain ⟨pre, s, hq, hs⟩ := (along_of_buildDirect h).last hline hreturns
  have hone : returns q.1 = q.2.toList := returns_buildDirect h
  cases hr : q.2 with
  | none => exact absurd (by simp [hone, hr]) hreturns
  | some a =>
    obtain ⟨pre', hpre'⟩ := layout_nested_singleton (hs.trans (by rw [hone, hr]; rfl) : returns [s] = [a])
    exact ⟨layout Placement.nested.keeps pre ++ pre', a, by rw [hq, layout_append, hpre', List.append_assoc]⟩

/-- what is returned, by the first end -/
theorem returns_of_firstEnd? (h : d.buildDirect client Node.inPlace = .ok q) :
    match d.firstEnd? with
    | none => returns q.1 = []
    | some n => ∃ v a, n.property? ["output"] = some v ∧ Formula.ofJson v = .ok a ∧ returns q.1 = [a] := by
  rw [returns_buildDirect h]
  obtain ⟨-, -, hfirst⟩ := traversal_of_buildDirect h
  cases hend : d.firstEnd? with
  | none =>
    rw [hend] at hfirst
    rw [hfirst]
    rfl
  | some n =>
    rw [hend] at hfirst
    obtain ⟨a, ha, hq⟩ := hfirst
    obtain ⟨v, hv, hread⟩ := n.expression_eq_ok.1 ha
    exact ⟨v, a, hv, hread, by rw [hq]; rfl⟩

theorem returns_ne_nil_iff (h : d.buildDirect client Node.inPlace = .ok q) :
    returns q.1 ≠ [] ↔ ∃ n, d.Reaches n ∧ n.isEnd := by
  have hclear := (traversal_of_buildDirect h).1
  have hreturns := returns_of_firstEnd? h
  cases hend : d.firstEnd? with
  | none =>
    rw [hend] at hreturns
    refine iff_of_false (fun hne => hne hreturns) ?_
    rintro ⟨n, hn, hnend⟩
    exact absurd hnend (List.find?_eq_none.1 hend n (hclear.mem_traversal.2 hn))
  | some n =>
    rw [hend] at hreturns
    obtain ⟨v, a, -, -, hreturns⟩ := hreturns
    refine iff_of_true (by simp [hreturns]) ⟨n, ?_, List.find?_some hend⟩
    exact hclear.mem_traversal.1 (List.mem_of_find?_eq_some hend)

end Document

/-- **The return of a compiled function.** The tree of a document has at most one return. It is at the root, and it is
the output of the first end in depth-first order. Other ends are not read. When conditionals are nested, the return is
last, or right after the loop of the main line that it is reached in. -/
theorem build_return {d : Document} {o : Options} {p : Program} (h : (d.build o).outcome = .ok p) :
    d.SingleReturn o p := by
  have hbuild := build_agrees d o
  rw [h] at hbuild
  obtain ⟨q, hq, hbody⟩ := hbuild.exists_right
  obtain ⟨hsound, -⟩ := Document.buildDirect_eq_ok.1 hq
  have hreturns : returns p.body = returns q.1 := by rw [hbody, returns_layout _ (Placement.keeps_ret _)]
  constructor
  · rw [hreturns, Document.returns_buildDirect hq]
    exact Option.length_toList_le
  · intro s hs t ht hreturn
    rw [hbody] at hs
    have hkeep := keep_of_mem_inside_layout _ hs ht
    rw [isReturn_eq, decide_eq_true_iff] at hreturn
    rw [hreturn, Placement.keeps_ret] at hkeep
    cases hkeep
  · rw [hreturns]
    exact Document.returns_ne_nil_iff hq
  · rw [hreturns]
    exact Document.returns_of_firstEnd? hq
  · rw [hbody, ← Document.kinds_of_buildDirect hq, kinds_eq_bares, kinds_eq_bares]
    exact (bares_layout_perm _ _).map _
  · intro n hn hnend hfirst properties
    refine build_withProperties h (fun m hm => ?_) hfirst properties
    rw [hsound.node?_of_mem hn] at hm
    cases hm
    exact hnend
  · exact Document.traversal_eq_mainLine hq
  · intro ho
    have hkind : kind ∘ prune Placement.nested.keeps = kind := funext fun s => kind_prune _ s
    rw [hbody, ho, filter_not_isReturn_layout, ← (Document.along_of_buildDirect hq).map_kind, pruneAll_eq, List.map_map,
      hkind]
    simp only [nested_keeps_kind]
  · intro ho before m inner after hline hends hbefore
    rw [hbody, ho]
    exact Document.layout_afterLoop hq hline hends hbefore
  · intro ho hends hne
    rw [hreturns] at hne
    rw [hbody, ho]
    exact Document.layout_last hq hends hne

/-- the first end of `earlyEnd` is reached inside its loop, and its other end has no output -/
theorem build_return_earlyEnd :
    (earlyEnd.build {}).outcome = .ok earlyEndTree ∧ earlyEnd.SingleReturn {} earlyEndTree :=
  ⟨build_earlyEnd, build_return build_earlyEnd⟩

end Flowchart
