/-
Where the statements of a tree come from.

Every statement of a tree is the statement of one node of the document: the expressions and names of the statement are
read from the properties of that node. What is inside its blocks comes from other nodes. This holds wherever the
statement is put, so it is first shown of direct compilation and then carried over to the layout, which changes nothing
of a statement but what is inside it. And every node that takes part has its statement in the tree.

- `Node.Reads`: the values that a node has read as formulas, and `Node.Expresses`, `Node.Targets`: what they read as.
- `Statement.MadeOf`, `Node.Gives`: the statement that a node gives, whatever is inside its blocks.
- `Document.mem_map_bare_of_build`: the statements of a tree, at any depth and for either placement, are those that the
  nodes add.
-/
import Flowchart.Proofs.Return

namespace Flowchart

open Statement

/-- the property in which a node of this kind has a formula -/
def NodeKind.formula? : NodeKind → Option String
  | .start => none
  | .setVariable => some "value"
  | .conditional => some "expression"
  | .httpCall => none
  | .loop => some "loopArray"
  | .finish => some "output"

namespace Node

/-- an entry of the parameters: an object with a key and a value, or an array of the two -/
inductive IsEntry : Json → String → Json → Prop
  | object {members : List (String × Json)} {key : String} {value : Json}
    (hkey : Json.get? "key" members = some (.str key)) (hvalue : Json.get? "value" members = some value) :
    IsEntry (.obj members) key value
  | pair (key : String) (value : Json) : IsEntry (.arr [.str key, value]) key value

/-- A value that the node has read as a formula: that of the property for its kind, the target of an assignment unless
it is a plain name, and the values of parameters. -/
inductive Reads (n : Node) : Json → Prop
  | formula {name : String} {v : Json} (hk : n.kind.formula? = some name) (h : n.property? [name] = some v) : Reads n v
  | target {v : Json} (hk : n.kind = .setVariable) (h : n.property? ["key"] = some v)
    (hplain : ∀ s : String, v = .str s → Text.isName (Text.trim s.toList) → (Text.trim s.toList).head? = some '$') :
    Reads n v
  | parameter {items : List Json} {item v : Json} {key : String} (hk : n.kind = .httpCall)
    (h : n.property? ["params"] = some (.arr items)) (hitem : item ∈ items) (hv : IsEntry item key v) : Reads n v

/-- the expression is what a formula of the node reads as -/
def Expresses (n : Node) (e : Expression) : Prop := ∃ v, n.Reads v ∧ Formula.ofJson v = .ok e

/-- the expression is a plain name, or what a formula of the node reads as -/
def Targets (n : Node) (e : Expression) : Prop :=
  (∃ name : String, Text.isName name.toList ∧ e = .identifier name) ∨ n.Expresses e

end Node

/-- A statement that is made of such targets and formulas, whatever is inside its blocks. What it binds and the method
of a call are names. -/
inductive Statement.MadeOf (client : String) (target formula : Expression → Prop) : Statement → Prop
  | assignment {left right : Expression} (hl : target left) (hr : formula right) :
    MadeOf client target formula (.expression (.assignment left right))
  | call {name method : String} {properties : List (String × Expression)} (hname : Text.isName name.toList)
    (hmethod : Text.isName method.toList) (url : Json) (hproperties : ∀ x ∈ properties, formula x.2) :
    MadeOf client target formula (.declaration name (.member
      (.asyncCall (.member (.identifier client) method) [.literal url, .object properties]) "data"))
  | conditional {test : Expression} (h : formula test) (consequent alternate : List Statement) :
    MadeOf client target formula (.conditional test consequent alternate)
  | loop {item : String} {iterable : Expression} (hitem : Text.isName item.toList) (h : formula iterable)
    (body : List Statement) : MadeOf client target formula (.forEach item iterable body)
  | output {argument : Expression} (h : formula argument) : MadeOf client target formula (.ret argument)

theorem Statement.MadeOf.imp {client : String} {target target' formula formula' : Expression → Prop} {s : Statement}
    (htarget : ∀ e, target e → target' e) (hformula : ∀ e, formula e → formula' e)
    (h : MadeOf client target formula s) :
    MadeOf client target' formula' s := by
  cases h with
  | assignment hl hr => exact .assignment (htarget _ hl) (hformula _ hr)
  | call hname hmethod url hproperties => exact .call hname hmethod url fun x hx => hformula _ (hproperties x hx)
  | conditional h consequent alternate => exact .conditional (hformula _ h) consequent alternate
  | loop hitem h body => exact .loop hitem (hformula _ h) body
  | output h => exact .output (hformula _ h)

namespace Node

/-- the statement of a node, whatever is inside its blocks -/
def Gives (n : Node) (client : String) : Statement → Prop := MadeOf client n.Targets n.Expresses

/-! ## Reading the properties of a node -/

variable {n : Node} {client : String}

theorem expresses_of_expression {name : String} {e : Expression} (hk : n.kind.formula? = some name)
    (h : (n.expression name).outcome = .ok e) : n.Expresses e := by
  obtain ⟨v, hv, he⟩ := n.expression_eq_ok.1 h
  exact ⟨v, .formula hk hv, he⟩

theorem isName_of_boundName? {v : Json} {name : String} (h : Formula.boundName? v = some name) :
    Text.isName name.toList := by
  cases v with
  | str s =>
    simp only [Formula.boundName?, Option.ite_none_right_eq_some, Option.some.injEq] at h
    obtain ⟨hname, rfl⟩ := h
    rwa [String.toList_ofList]
  | _ => cases h

theorem isName_of_variableName {name : String} {others : List String} {x : String}
    (h : n.variableName name others = .ok x) : Text.isName x.toList := by
  obtain ⟨v, -, h⟩ := bind_eq_ok.1 h
  split at h
  · rename_i y hy
    rw [pure_eq_ok] at h
    subst h
    exact isName_of_boundName? hy
  · cases h

theorem isName_of_method {x : String} (h : n.method = .ok x) : Text.isName x.toList := by
  unfold method at h
  split at h
  · cases h
    decide
  · cases h
    decide
  · split at h
    · rename_i hname
      cases h
      rwa [String.toList_ofList]
    · cases h
  · cases h

theorem plainName?_eq_some {s name : List Char} :
    Formula.plainName? s = some name ↔ (name.head? ≠ some '$' ∧ Text.isName name) ∧ Text.trim s = name := by
  simp only [Formula.plainName?, Option.ite_none_right_eq_some, Option.some.injEq]
  constructor
  · rintro ⟨h, rfl⟩
    exact ⟨h, rfl⟩
  · rintro ⟨h, rfl⟩
    exact ⟨h, rfl⟩

/-- the target of an assignment is a plain name, or a formula of the node -/
theorem targets_of_target {key : Json} {e : Expression} (hk : n.kind = .setVariable)
    (hkey : n.property? ["key"] = some key) (h : Formula.target key = .ok e) : n.Targets e := by
  unfold Formula.target at h
  split at h
  · rename_i s
    split at h
    · rename_i name hname
      cases h
      obtain ⟨⟨-, hplain⟩, -⟩ := plainName?_eq_some.1 hname
      exact Or.inl ⟨_, by rwa [String.toList_ofList], rfl⟩
    · rename_i hname
      refine Or.inr ⟨_, .target hk hkey ?_, h⟩
      rintro _ ⟨⟩ hplain
      by_contra hhead
      rw [plainName?_eq_some.2 ⟨⟨hhead, hplain⟩, rfl⟩] at hname
      cases hname
  · rename_i hstr
    exact Or.inr ⟨_, .target hk hkey fun s hs => absurd hs (hstr s), h⟩

theorem assignment_eq_ok {s : Statement} :
    n.assignment.outcome = .ok s ↔ ∃ key left right, n.property? ["key"] = some key ∧ Formula.target key = .ok left ∧
      (n.expression "value").outcome = .ok right ∧ s = .expression (.assignment left right) := by
  simp only [assignment, parsed, Logged.outcome_bind, Logged.outcome_lift, Logged.outcome_log, ok_bind, bind_eq_ok,
    required_eq_ok, mapError_eq_ok, Logged.outcome_pure, Except.ok.injEq]
  constructor
  · rintro ⟨key, hkey, left, hleft, right, hright, rfl⟩
    exact ⟨key, left, right, hkey, hleft, hright, rfl⟩
  · rintro ⟨key, left, right, hkey, hleft, hright, rfl⟩
    exact ⟨key, hkey, left, hleft, right, hright, rfl⟩

theorem gives_of_assignment {s : Statement} (hk : n.kind = .setVariable) (h : n.assignment.outcome = .ok s) :
    n.Gives client s := by
  obtain ⟨key, left, right, hkey, hleft, hright, rfl⟩ := assignment_eq_ok.1 h
  exact .assignment (targets_of_target hk hkey hleft) (expresses_of_expression (by rw [hk]; rfl) hright)

theorem parameter?_eq_some {item : Json} {key : String} {value : Json} :
    parameter? item = some (key, value) ↔ IsEntry item key value := by
  constructor
  · intro h
    unfold parameter? at h
    split at h
    · split at h
      · rename_i hkey hvalue
        cases h
        exact .object hkey hvalue
      · cases h
    · cases h
      exact .pair key value
    · cases h
  · intro h
    cases h with
    | object hkey hvalue => simp only [parameter?, hkey, hvalue]
    | pair => rfl

/-- the values of parameters are read as formulas -/
theorem reads_of_parameters {ps : List (String × Json)} (hk : n.kind = .httpCall) (h : n.parameters = .ok ps) :
    ∀ p ∈ ps, n.Reads p.2 := by
  unfold parameters at h
  split at h
  · cases h
    nofun
  · cases h
    nofun
  · rename_i items hitems
    split at h
    · rename_i ps' hps
      cases h
      intro p hp
      obtain ⟨item, hitem, hv⟩ := exists_of_mapM hps p hp
      exact .parameter hk hitems hitem (parameter?_eq_some.1 hv)
    · cases h
  · cases h

/-- the value under a key reads as the expression under the same key -/
def Evaluates (pair : String × Json) (p : String × Expression) : Prop :=
  p.1 = pair.1 ∧ Formula.ofJson pair.2 = .ok p.2

theorem argument_eq_ok {pair : String × Json} {p : String × Expression} :
    (n.argument pair).outcome = .ok p ↔ Evaluates pair p := by
  simp only [argument, parsed, Logged.outcome_bind, Logged.outcome_log, Logged.outcome_lift, Logged.outcome_pure,
    ok_bind, bind_eq_ok, mapError_eq_ok, Except.ok.injEq]
  constructor
  · intro h
    obtain ⟨value, hvalue, rfl⟩ := h
    exact ⟨rfl, hvalue⟩
  · intro h
    exact ⟨p.2, h.2, Prod.ext h.1.symm rfl⟩

theorem arguments_eq_ok {pairs : List (String × Json)} {properties : List (String × Expression)} :
    (pairs.mapM n.argument).outcome = .ok properties ↔ List.Forall₂ Evaluates pairs properties := by
  induction pairs generalizing properties with
  | nil =>
    rw [List.forall₂_nil_left_iff]
    exact pure_eq_ok
  | cons pair pairs ih =>
    simp only [List.mapM_cons, Logged.outcome_bind, Logged.outcome_pure, bind_eq_ok, Except.ok.injEq, argument_eq_ok,
      ih]
    constructor
    · intro h
      obtain ⟨p, hp, rest, hrest, rfl⟩ := h
      exact .cons hp hrest
    · intro h
      cases h with
      | cons hp hrest => exact ⟨_, hp, _, hrest, rfl⟩

theorem expresses_of_arguments {ps : List (String × Json)} {properties : List (String × Expression)}
    (h : (ps.mapM n.argument).outcome = .ok properties) (hps : ∀ p ∈ ps, n.Reads p.2) :
    ∀ x ∈ properties, n.Expresses x.2 := by
  intro x hx
  obtain ⟨p, hp, -, hvalue⟩ := exists_left_of_forall₂ (arguments_eq_ok.1 h) x hx
  exact ⟨p.2, hps p hp, hvalue⟩

theorem gives_of_httpCall {s : Statement} (hk : n.kind = .httpCall) (h : (n.httpCall client).outcome = .ok s) :
    n.Gives client s := by
  unfold httpCall at h
  simp only [Logged.outcome_bind, Logged.outcome_lift, bind_eq_ok] at h
  obtain ⟨url, -, method, hmethod, ps, hps, properties, hproperties, name, hname, h⟩ := h
  cases h
  exact .call (isName_of_variableName hname) (isName_of_method hmethod) url
    (expresses_of_arguments hproperties (reads_of_parameters hk hps))

theorem loopHead_eq_ok {iterable : Expression} {item : String} :
    n.loopHead.outcome = .ok (iterable, item) ↔ (n.expression "loopArray").outcome = .ok iterable ∧
      n.variableName "currentItemName" ["currentItem"] = .ok item := by
  simp only [loopHead, Logged.outcome_bind, Logged.outcome_lift, bind_eq_ok, Logged.outcome_pure, Except.ok.injEq,
    Prod.mk.injEq]
  constructor
  · rintro ⟨_, hiterable, _, hitem, rfl, rfl⟩
    exact ⟨hiterable, hitem⟩
  · rintro ⟨hiterable, hitem⟩
    exact ⟨iterable, hiterable, item, hitem, rfl, rfl⟩

theorem gives_of_loopHead {iterable : Expression} {item : String} (hk : n.kind = .loop)
    (h : n.loopHead.outcome = .ok (iterable, item)) (body : List Statement) :
    n.Gives client (.forEach item iterable body) := by
  obtain ⟨hiterable, hitem⟩ := loopHead_eq_ok.1 h
  exact .loop (isName_of_variableName hitem) (expresses_of_expression (by rw [hk]; rfl) hiterable) body

/-! ## One node -/

theorem Adds.gives {s : Statement} (h : n.Adds client s) : n.Gives client s := by
  cases h with
  | assignment hk h => exact gives_of_assignment hk h
  | conditional hk h => exact .conditional (expresses_of_expression (by rw [hk]; rfl) h) [] []
  | call hk h => exact gives_of_httpCall hk h
  | loop hk h => exact gives_of_loopHead hk h []
  | output hk h => exact .output (expresses_of_expression (by rw [hk]; rfl) h)

/-- what is inside the blocks of a statement does not count -/
theorem Gives.of_bare {s : Statement} (h : n.Gives client s.bare) : n.Gives client s := by
  cases s with
  | conditional test consequent alternate =>
    rw [bare, prune] at h
    cases h with
    | conditional h _ _ => exact .conditional h consequent alternate
  | forEach item iterable body =>
    rw [bare, prune] at h
    cases h with
    | loop hitem h _ => exact .loop hitem h body
  | _ => exact h

end Node

/-! ## The whole tree -/

namespace Document

variable {d : Document} {client : String}

/-- the node takes part in the tree: it is reached, and if it is an end no other end comes before it -/
def Compiles (d : Document) (n : Node) : Prop := d.Reaches n ∧ (n.isEnd → d.firstEnd? = some n)

/-- the statement is given by a node that takes part in the tree -/
def Gives (d : Document) (client : String) (s : Statement) : Prop := ∃ n, d.Compiles n ∧ n.Gives client s

/-- without their blocks, statements are those that are no returns, and the returns -/
theorem mem_map_bare {ts : List Statement} {s : Statement} :
    s ∈ (walkAll ts).map bare ↔ s ∈ bares ts ∨ ∃ a ∈ returns ts, s = .ret a := by
  simp only [bares, returns, List.mem_map, List.mem_filter, List.mem_filterMap]
  constructor
  · rintro ⟨t, ht, rfl⟩
    cases t with
    | ret a => exact Or.inr ⟨a, ⟨.ret a, ht, rfl⟩, rfl⟩
    | _ => exact Or.inl ⟨_, ⟨ht, rfl⟩, rfl⟩
  · rintro (⟨t, ⟨ht, -⟩, rfl⟩ | ⟨a, ⟨t, ht, hreturned⟩, rfl⟩)
    · exact ⟨t, ht, rfl⟩
    · cases t with
      | ret argument =>
        cases hreturned
        exact ⟨.ret a, ht, rfl⟩
      | _ => cases hreturned

/-- the same for direct compilation -/
theorem mem_map_bare_of_buildDirect {q : List Statement × Option Expression}
    (h : d.buildDirect client Node.inPlace = .ok q) {s : Statement} :
    s ∈ (walkAll q.1).map bare ↔ ∃ n, d.Compiles n ∧ n.Adds client s := by
  obtain ⟨hclear, -, hfirst⟩ := traversal_of_buildDirect h
  rw [mem_map_bare, bares_of_buildDirect h, returns_buildDirect h, List.mem_filterMap]
  constructor
  · rintro (⟨n, hn, hs⟩ | ⟨a, ha, rfl⟩)
    · refine ⟨n, ⟨hclear.mem_traversal.1 hn, fun hend => ?_⟩, n.adds_of_statement? hs⟩
      rw [Node.statement?, Node.isEnd_iff.1 hend] at hs
      cases hs
    · cases hend : d.firstEnd? with
      | none =>
        rw [hend] at hfirst
        simp [hfirst] at ha
      | some n =>
        rw [hend] at hfirst
        obtain ⟨b, hb, hq⟩ := hfirst
        obtain rfl : a = b := by simpa [hq] using ha
        have hreach := hclear.mem_traversal.1 (List.mem_of_find?_eq_some hend)
        exact ⟨n, ⟨hreach, fun _ => hend⟩, .output (Node.isEnd_iff.1 (List.find?_some hend)) hb⟩
  · rintro ⟨n, ⟨hreach, hend⟩, hs⟩
    by_cases hn : n.isEnd
    · obtain ⟨a, ha, rfl⟩ := hs.of_isEnd hn
      rw [hend hn] at hfirst
      obtain ⟨b, hb, hq⟩ := hfirst
      obtain rfl : a = b := by simpa [ha] using hb
      exact Or.inr ⟨a, by simp [hq], rfl⟩
    · exact Or.inl ⟨n, hclear.mem_traversal.2 hreach, hs.statement?_eq hn⟩

/-- **The statements of a tree, without what is inside their blocks, are those that the nodes add**, at any depth and
for either placement. -/
theorem mem_map_bare_of_build {o : Options} {p : Program} (h : (d.build o).outcome = .ok p) {s : Statement} :
    s ∈ p.walk.map bare ↔ ∃ n, d.Compiles n ∧ n.Adds o.httpClient s := by
  have hbuild := build_agrees d o
  rw [h] at hbuild
  obtain ⟨q, hq, hbody⟩ := hbuild.exists_right
  rw [← mem_map_bare_of_buildDirect hq, Program.walk, hbody]
  exact (layout_perm o.placement.keeps q.1).mem_iff

/-- every statement of a tree is given by a node of the document -/
theorem gives_of_build {o : Options} {p : Program} (h : (d.build o).outcome = .ok p) :
    ∀ s ∈ p.walk, d.Gives o.httpClient s := by
  intro s hs
  obtain ⟨n, hn, hadds⟩ := (mem_map_bare_of_build h).1 (List.mem_map_of_mem hs)
  exact ⟨n, hn, hadds.gives.of_bare⟩

end Document

end Flowchart
