/-
The main line of a flow.

When conditionals are nested, the root of the tree has the statements of the main line: the start node and what follows
it, edge by edge. All other nodes are entered inside a node of the main line.

- `Puts`: what a node adds to the list that it is reached for.
- `Node.Adds`: the statement that a node adds to the tree, with nothing in its blocks.
- `bares_of_direct`: every node that is entered adds its statement, except start nodes and ends.
- `mainLine`: the nodes of the main line, each with the nodes that are entered inside it. Only its last node can be a
  conditional or an end (`Clear.of_mem_dropLast`).
- `Along`: the statements of a main line, node by node, with what the function returns up to there. Compilation gives
  such statements (`along_of_direct`).
-/
import Flowchart.Proofs.Success

namespace Flowchart

open Statement

/-- the kind of the statement that a node adds -/
def NodeKind.statement? : NodeKind → Option StatementKind
  | .start => none
  | .setVariable => some .expression
  | .conditional => some .conditional
  | .httpCall => some .declaration
  | .loop => some .forEach
  | .finish => none

namespace Node

/-- what a node adds, around what its blocks hold -/
inductive Puts (n : Node) (client : String) (first second : List Statement) : List Statement → Prop
  | start (hk : n.kind = .start) : Puts n client first second []
  | assignment {s : Statement} (hk : n.kind = .setVariable) (h : n.assignment.outcome = .ok s) :
    Puts n client first second [s]
  | conditional {test : Expression} (hk : n.kind = .conditional) (h : (n.expression "expression").outcome = .ok test) :
    Puts n client first second [.conditional test first second]
  | call {s : Statement} (hk : n.kind = .httpCall) (h : (n.httpCall client).outcome = .ok s) :
    Puts n client first second [s]
  | loop {iterable : Expression} {item : String} (hk : n.kind = .loop) (h : n.loopHead.outcome = .ok (iterable, item)) :
    Puts n client first second [.forEach item iterable first]
  | skipped (hk : n.kind = .finish) : Puts n client first second []
  | returns (argument : Expression) (hk : n.kind = .finish) : Puts n client first second [.ret argument]

theorem puts_of_around {n : Node} {client : String} {r r' : Option Expression}
    {put : List Statement → List Statement → List Statement} (h : (n.around client inPlace).run r = .ok (put, r'))
    (first second : List Statement) : n.Puts client first second (put first second) := by
  cases hk : n.kind with
  | start =>
    simp only [around, hk] at h
    cases h
    exact .start hk
  | setVariable =>
    simp only [around, hk, Direct.run_read_eq_ok] at h
    obtain ⟨s, hs, h⟩ := h
    cases h
    exact .assignment hk hs
  | conditional =>
    simp only [around, hk, Direct.run_read_eq_ok] at h
    obtain ⟨test, htest, h⟩ := h
    cases h
    exact .conditional hk htest
  | httpCall =>
    simp only [around, hk, Direct.run_read_eq_ok] at h
    obtain ⟨s, hs, h⟩ := h
    cases h
    exact .call hk hs
  | loop =>
    simp only [around, hk, Direct.run_read_eq_ok] at h
    obtain ⟨head, hl, h⟩ := h
    cases h
    exact .loop hk hl
  | finish =>
    cases r with
    | some a =>
      rw [run_around_finish_some hk] at h
      cases h
      exact .skipped hk
    | none =>
      rw [run_around_finish_none hk, map_eq_ok] at h
      obtain ⟨a, -, h⟩ := h
      cases h
      exact .returns a hk

end Node

/-! ## The statements of all nodes -/

/-- all statements in a list but returns, depth first, each with nothing in its blocks -/
def Statement.bares (ts : List Statement) : List Statement := ((walkAll ts).filter fun s => !s.isReturn).map bare

@[simp] theorem Statement.bares_nil : bares [] = [] := by simp [bares]

@[simp] theorem Statement.bares_append (ts us : List Statement) : bares (ts ++ us) = bares ts ++ bares us := by
  simp [bares]

theorem Statement.bares_leaf {s : Statement} (hs : s.isLeaf) (hr : s.kind ≠ .ret) : bares [s] = [s] := by
  simp [bares, inside_leaf hs, isReturn_eq, hr, bare, prune_leaf _ hs]

theorem Statement.bares_conditional (test : Expression) (consequent alternate : List Statement) :
    bares [.conditional test consequent alternate] =
      .conditional test [] [] :: (bares consequent ++ bares alternate) := by
  simp [bares, inside, isReturn, bare, prune, pruneAll_eq]

theorem Statement.bares_forEach (item : String) (iterable : Expression) (body : List Statement) :
    bares [.forEach item iterable body] = .forEach item iterable [] :: bares body := by
  simp [bares, inside, isReturn, bare, prune, pruneAll_eq]

namespace Node

/-- the statement that a node adds, with nothing in its blocks; start nodes add none, and ends are apart -/
def statement? (n : Node) (client : String) : Option Statement :=
  match n.kind with
  | .start => none
  | .setVariable => n.assignment.outcome.toOption
  | .conditional => (n.expression "expression").outcome.toOption.map fun test => .conditional test [] []
  | .httpCall => (n.httpCall client).outcome.toOption
  | .loop => n.loopHead.outcome.toOption.map fun head => .forEach head.2 head.1 []
  | .finish => none

variable {n : Node} {client : String} {s : Statement}

/-- the statement that a node adds, with nothing in its blocks; that of an end is a return -/
inductive Adds (n : Node) (client : String) : Statement → Prop
  | assignment {s : Statement} (hk : n.kind = .setVariable) (h : n.assignment.outcome = .ok s) : Adds n client s
  | conditional {test : Expression} (hk : n.kind = .conditional) (h : (n.expression "expression").outcome = .ok test) :
    Adds n client (.conditional test [] [])
  | call {s : Statement} (hk : n.kind = .httpCall) (h : (n.httpCall client).outcome = .ok s) : Adds n client s
  | loop {iterable : Expression} {item : String} (hk : n.kind = .loop) (h : n.loopHead.outcome = .ok (iterable, item)) :
    Adds n client (.forEach item iterable [])
  | output {a : Expression} (hk : n.kind = .finish) (h : (n.expression "output").outcome = .ok a) :
    Adds n client (.ret a)

theorem adds_of_statement? (h : n.statement? client = some s) : n.Adds client s := by
  unfold statement? at h
  cases hk : n.kind with
  | start =>
    rw [hk] at h
    cases h
  | setVariable =>
    rw [hk] at h
    exact .assignment hk (toOption_eq_some.1 h)
  | conditional =>
    rw [hk] at h
    obtain ⟨test, htest, rfl⟩ := Option.map_eq_some_iff.1 h
    exact .conditional hk (toOption_eq_some.1 htest)
  | httpCall =>
    rw [hk] at h
    exact .call hk (toOption_eq_some.1 h)
  | loop =>
    rw [hk] at h
    obtain ⟨head, hl, rfl⟩ := Option.map_eq_some_iff.1 h
    exact .loop hk (toOption_eq_some.1 hl)
  | finish =>
    rw [hk] at h
    cases h

theorem Adds.statement?_eq (h : n.Adds client s) (hn : ¬n.isEnd) : n.statement? client = some s := by
  unfold statement?
  cases h with
  | output hk _ => exact absurd (isEnd_iff.2 hk) hn
  | _ hk h =>
    rw [hk, h]
    rfl

theorem Adds.of_isEnd (h : n.Adds client s) (hn : n.isEnd) :
    ∃ a, (n.expression "output").outcome = .ok a ∧ s = .ret a := by
  rw [isEnd_iff] at hn
  cases h with
  | output _ h => exact ⟨_, h, rfl⟩
  | _ hk _ => simp [hn] at hk

/-- a node that can be read adds a statement, start nodes aside; an end if its output can be read -/
theorem exists_adds (h : n.readable) (hk : n.kind ≠ .start)
    (hend : n.isEnd → ∃ a, (n.expression "output").outcome = .ok a) : ∃ s, n.Adds client s := by
  unfold readable at h
  cases hkind : n.kind with
  | start => exact absurd hkind hk
  | setVariable =>
    rw [hkind] at h
    obtain ⟨s, hs⟩ := isOk_iff.1 (n.isOk_assignment.trans h)
    exact ⟨s, .assignment hkind hs⟩
  | conditional =>
    rw [hkind] at h
    obtain ⟨test, htest⟩ := isOk_iff.1 ((n.isOk_expression "expression").trans h)
    exact ⟨_, .conditional hkind htest⟩
  | httpCall =>
    rw [hkind] at h
    obtain ⟨s, hs⟩ := isOk_iff.1 ((n.isOk_httpCall client).trans h)
    exact ⟨s, .call hkind hs⟩
  | loop =>
    rw [hkind] at h
    obtain ⟨⟨iterable, item⟩, hl⟩ := isOk_iff.1 (n.isOk_loopHead.trans h)
    exact ⟨_, .loop hkind hl⟩
  | finish =>
    obtain ⟨a, ha⟩ := hend (isEnd_iff.2 hkind)
    exact ⟨_, .output hkind ha⟩

/-- the kind of the statement goes with the kind of the node -/
theorem Adds.kind_eq (h : n.Adds client s) (hn : ¬n.isEnd) : n.kind.statement? = some s.kind := by
  cases h with
  | assignment hk h => rw [hk, kind_assignment h, NodeKind.statement?]
  | conditional hk _ => rw [hk, NodeKind.statement?, Statement.kind]
  | call hk h => rw [hk, kind_httpCall h, NodeKind.statement?]
  | loop hk _ => rw [hk, NodeKind.statement?, Statement.kind]
  | output hk _ => exact absurd (isEnd_iff.2 hk) hn

end Node

namespace Document

variable {d : Document} {client : String} {path : List String} {c : Visit} {via : String} {r : Option Expression}
  {q : List Statement × Option Expression}

/-- one node adds its statement, around what its blocks hold -/
theorem bares_of_puts {n : Node} {first second part : List Statement} (h : n.Puts client first second part)
    (hfirst : d.firstBlock n = [] → first = []) (hsecond : d.secondBlock n = [] → second = []) :
    bares part = (n.statement? client).toList ++ (bares first ++ bares second) := by
  -- blocks that nothing is visited for are empty
  have hleaf : d.firstBlock n = [] → d.secondBlock n = [] → bares first ++ bares second = [] := by
    intro h1 h2
    rw [hfirst h1, hsecond h2]
    rfl
  cases h with
  | start hk =>
    rw [hleaf (by rw [firstBlock, hk]) (by rw [secondBlock, hk]), Node.statement?, hk, bares_nil]
    rfl
  | assignment hk h =>
    have hkind := Node.kind_assignment h
    rw [hleaf (by rw [firstBlock, hk]) (by rw [secondBlock, hk]), Node.statement?, hk, h]
    exact bares_leaf (isLeaf_of_kind (by simp [hkind])) (by simp [hkind])
  | @conditional test hk h =>
    rw [Node.statement?, hk, h]
    exact bares_conditional test first second
  | call hk h =>
    have hkind := Node.kind_httpCall h
    rw [hleaf (by rw [firstBlock, hk]) (by rw [secondBlock, hk]), Node.statement?, hk, h]
    exact bares_leaf (isLeaf_of_kind (by simp [hkind])) (by simp [hkind])
  | @loop iterable item hk h =>
    rw [hsecond (by rw [secondBlock, hk]), Node.statement?, hk, h, bares_nil, List.append_nil]
    exact bares_forEach item iterable first
  | skipped hk =>
    rw [hleaf (by rw [firstBlock, hk]) (by rw [secondBlock, hk]), Node.statement?, hk, bares_nil]
    rfl
  | returns argument hk =>
    rw [hleaf (by rw [firstBlock, hk]) (by rw [secondBlock, hk]), Node.statement?, hk]
    simp [bares, inside, isReturn]

theorem bares_of_enterAll {cs : List Visit}
    (ih : ∀ (c : Visit) r q, (d.direct client Node.inPlace path c.id via c.k).run r = .ok q →
      bares q.1 = (d.tour path c).filterMap fun n => n.statement? client)
    (h : (enterAll (d.descent client Node.inPlace path via) cs).run r = .ok q) :
    bares q.1 = (cs.flatMap (d.tour path)).filterMap fun n => n.statement? client := by
  refine enterAll_induction (motive := fun cs _ q =>
    bares q.1 = (cs.flatMap (d.tour path)).filterMap fun n => n.statement? client) (fun r => bares_nil) ?_ h
  intro c cs r first r1 rest r' hfirst _ hrest
  rw [bares_append, List.flatMap_cons, List.filterMap_append]
  exact congrArg₂ (· ++ ·) (ih c r _ hfirst) hrest

theorem eq_nil_of_enterAll {enter : Descent} {cs : List Visit} (h : (enterAll enter cs).run r = .ok q) (hcs : cs = []) :
    q.1 = [] := by
  subst hcs
  rw [run_enterAll_nil_eq_ok.1 h]

/-- **Every node that is entered adds its statement,** except start nodes and ends. -/
theorem bares_of_direct (h : (d.direct client Node.inPlace path c.id via c.k).run r = .ok q) :
    bares q.1 = (d.tour path c).filterMap fun n => n.statement? client := by
  refine d.direct_induction client Node.inPlace (motive := fun path c _ _ q =>
    bares q.1 = (d.tour path c).filterMap fun n => n.statement? client) ?_ h
  intro path c via n r q hn hp h ih
  obtain ⟨put, r1, first, r2, second, r3, rest, h0, h1, h2, h3, hq⟩ := Node.run_direct_eq_ok.1 h
  have hput := bares_of_puts (n.puts_of_around h0 first second) (eq_nil_of_enterAll h1) (eq_nil_of_enterAll h2)
  have hb1 := bares_of_enterAll ih h1
  have hb2 := bares_of_enterAll ih h2
  have hb3 := bares_of_enterAll ih h3
  rw [hq, bares_append, hput, tour_enter hn hp, steps, List.flatMap_append, List.flatMap_append]
  cases hs : n.statement? client <;> simp_all

/-! ## The main line -/

/-- the nodes that follow one another from a visit on, each with the nodes that are entered inside it -/
def lineFrom (d : Document) (path : List String) (c : Visit) : List (Node × List Node) :=
  match hn : d.node? c.id with
  | none => []
  | some n =>
    if hp : c.id ∈ path then []
    else
      have := offPath_cons_lt hn hp
      (n, (d.firstBlock n ++ d.secondBlock n).flatMap (d.tour (c.id :: path))) ::
        (d.after n c.k).flatMap fun c' => d.lineFrom (c.id :: path) c'
termination_by d.offPath path

/-- the main line of a flow -/
def mainLine (d : Document) : List (Node × List Node) := d.starts.flatMap fun n => d.lineFrom [] ⟨n.id, .follow⟩

theorem lineFrom_enter {n : Node} (hn : d.node? c.id = some n) (hp : c.id ∉ path) :
    d.lineFrom path c = (n, (d.firstBlock n ++ d.secondBlock n).flatMap (d.tour (c.id :: path))) ::
      (d.after n c.k).flatMap (d.lineFrom (c.id :: path)) := by
  rw [lineFrom]
  split
  · rename_i h
    rw [hn] at h
    cases h
  · rename_i m h
    rw [hn] at h
    cases h
    rw [dif_neg hp]

theorem after_cases (d : Document) (n : Node) (k : Continuation) : d.after n k = [] ∨ ∃ c, d.after n k = [c] := by
  unfold after
  cases n.kind <;> cases d.next? n.id k <;> simp [Visit.onward]

/-- the nodes of a clear traversal are those of the main line and those inside them -/
theorem Clear.tour_eq (h : d.Clear path c) : d.tour path c = (d.lineFrom path c).flatMap fun x => x.1 :: x.2 := by
  induction h with
  | @enter path c n hn hp hs ih =>
    rw [tour_enter hn hp, lineFrom_enter hn hp, List.flatMap_cons, steps, List.flatMap_append, List.cons_append]
    congr 2
    rcases d.after_cases n c.k with hafter | ⟨c', hafter⟩
    · rw [hafter]
      rfl
    · rw [hafter, List.flatMap_singleton, List.flatMap_singleton]
      exact ih c' (by simp [steps, hafter])

/-- only the last node of a main line can be a conditional or an end, and only in loops are nodes entered before it -/
theorem Clear.of_mem_dropLast (h : d.Clear path c) {x : Node × List Node} (hx : x ∈ (d.lineFrom path c).dropLast) :
    x.1.kind ≠ .conditional ∧ x.1.kind ≠ .finish ∧ (x.1.kind ≠ .loop → x.2 = []) := by
  induction h with
  | @enter path c n hn hp hs ih =>
    rw [lineFrom_enter hn hp] at hx
    rcases d.after_cases n c.k with hafter | ⟨c', hafter⟩
    · rw [hafter] at hx
      cases hx
    · have hc' : c' ∈ d.after n c.k := by simp [hafter]
      obtain ⟨hc, hf, -⟩ := mem_after.1 hc'
      rw [hafter, List.flatMap_singleton] at hx
      by_cases hline : d.lineFrom (c.id :: path) c' = []
      · rw [hline] at hx
        cases hx
      · rw [List.dropLast_cons_of_ne_nil hline] at hx
        rcases List.mem_cons.1 hx with rfl | hx
        · refine ⟨hc, hf, fun hl => ?_⟩
          cases hk : n.kind <;> simp_all [firstBlock, secondBlock]
        · exact ih c' (by simp [steps, hafter]) hx

end Document

/-! ## The statements of a main line -/

/-- the statements of a main line, node by node, and what the function returns before and after them -/
inductive Along (client : String) : Option Expression → List (Node × List Node) → List Statement → Option Expression → Prop
  | nil (r : Option Expression) : Along client r [] [] r
  | cons {r r1 r' : Option Expression} {n : Node} {inner : List Node} {line : List (Node × List Node)}
    {first second part rest : List Statement} (hputs : n.Puts client first second part)
    (hreturns : r.toList ++ returns part = r1.toList) (hends : r1.isSome = (r.isSome || (n :: inner).any Node.isEnd))
    (h : Along client r1 line rest r') : Along client r ((n, inner) :: line) (part ++ rest) r'

namespace Along

variable {client : String} {r r1 r' : Option Expression} {line line' : List (Node × List Node)} {ts us : List Statement}

theorem append (h : Along client r line ts r1) (h' : Along client r1 line' us r') :
    Along client r (line ++ line') (ts ++ us) r' := by
  induction h with
  | nil r => exact h'
  | cons hputs hreturns hends _ ih =>
    rw [List.cons_append, List.append_assoc]
    exact .cons hputs hreturns hends (ih h')

theorem returns_eq (h : Along client r line ts r') : r.toList ++ returns ts = r'.toList := by
  induction h with
  | nil r => simp
  | cons hputs hreturns hends _ ih => rw [returns_append, ← List.append_assoc, hreturns, ih]

end Along

namespace Document

variable {d : Document} {client : String} {path : List String} {c : Visit} {via : String} {r : Option Expression}
  {q : List Statement × Option Expression}

theorem along_of_enterAll {cs : List Visit}
    (ih : ∀ (c : Visit) r q, (d.direct client Node.inPlace path c.id via c.k).run r = .ok q →
      Along client r (d.lineFrom path c) q.1 q.2)
    (h : (enterAll (d.descent client Node.inPlace path via) cs).run r = .ok q) :
    Along client r (cs.flatMap (d.lineFrom path)) q.1 q.2 := by
  refine enterAll_induction (motive := fun cs r q => Along client r (cs.flatMap (d.lineFrom path)) q.1 q.2) .nil ?_ h
  intro c cs r first r1 rest r' hfirst _ hrest
  rw [List.flatMap_cons]
  exact (ih c r _ hfirst).append hrest

/-- **The main line.** Compilation gives the statements of the nodes that follow one another, in order. -/
theorem along_of_direct (h : (d.direct client Node.inPlace path c.id via c.k).run r = .ok q) :
    Along client r (d.lineFrom path c) q.1 q.2 := by
  refine d.direct_induction client Node.inPlace (motive := fun path c _ r q => Along client r (d.lineFrom path c) q.1 q.2) ?_ h
  intro path c via n r q hn hp h ih
  have hdirect : (d.direct client Node.inPlace path c.id via c.k).run r = .ok q := by rw [direct_enter hn hp, h]
  have hreturns := returns_direct hdirect
  obtain ⟨put, r1, first, r2, second, r3, rest, h0, h1, h2, h3, hq⟩ := Node.run_direct_eq_ok.1 h
  have hrest := along_of_enterAll ih h3
  have hchecks : (n :: (d.firstBlock n ++ d.secondBlock n).flatMap (d.tour (c.id :: path))).foldlM
      (fun r n => n.check client r) r = .ok r3 := by
    rw [List.foldlM_cons, Node.check_of_around h0, ok_bind, List.flatMap_append, List.foldlM_append,
      foldlM_check_of_enterAll h1]
    exact foldlM_check_of_enterAll h2
  rw [hq, lineFrom_enter hn hp]
  refine .cons (Node.puts_of_around h0 first second) ?_ (Node.isSome_of_foldlM_check hchecks) hrest
  -- what the rest returns is the same on both sides
  rw [hq, returns_append, ← List.append_assoc, ← hrest.returns_eq] at hreturns
  exact List.append_cancel_right hreturns

end Document

end Flowchart
