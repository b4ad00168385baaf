/-
Tags that are not known.

Before a tree is read from a value, the value is searched for tags that name no kind. The search knows nothing of trees:
it visits all of the value but what is inside literals. A place in a value is the path that leads to it. An array comes
before its items, an object before its members, items come in order and members in the order of their keys, so one place
comes before another when its path does in the lexicographic order. Objects are read with their keys in order, and so
the search, which takes members as they stand, finds the first unknown tag.

- `Json.Visits`: the places in a value that are not inside a literal.
- `Json.FirstUnknown`: the first unknown tag.
- `Json.unknownTag?_eq_some`: it is what the search finds, if keys are in order.
- `renderTree_unknownKind`: what rendering a text gives, and which error comes first.
-/
import Flowchart.Compile
import Flowchart.Proofs.DocumentReading

namespace Flowchart

namespace Json

/-! ## Places in a value -/

/-- a step to an item of an array or to a member of an object -/
inductive Step where
  | item (index : Nat)
  | member (key : String)

/-- items come in order, and members in the order of their keys -/
inductive Step.Before : Step → Step → Prop
  | item {i j : Nat} (h : i < j) : Before (.item i) (.item j)
  | member {key key' : String} (h : key < key') : Before (.member key) (.member key')

instance : LT Step := ⟨Step.Before⟩

namespace Step

theorem lt_irrefl (s : Step) : ¬s < s := by
  intro h
  cases h with
  | item h => exact absurd h (Nat.lt_irrefl _)
  | member h => exact absurd h (String.lt_irrefl _)

theorem lt_asymm {s t : Step} (h : s < t) : ¬t < s := by
  intro h'
  cases h with
  | item h =>
    cases h' with
    | item h' => exact absurd h' (Nat.lt_asymm h)
  | member h =>
    cases h' with
    | member h' => exact absurd h' (String.lt_asymm h)

end Step

/-- the object is a literal -/
def isLiteral (members : List (String × Json)) : Bool :=
  match get? "type" members with
  | some (.str tag) => tag = "Literal"
  | _ => false

/-- the values right inside a value, each with the step to it; a literal has none -/
def children : Json → List (Step × Json)
  | .arr items => items.zipIdx.map fun x => (.item x.2, x.1)
  | .obj members => if isLiteral members then [] else members.map fun m => (.member m.1, m.2)
  | _ => []

/-- There is this value at the end of the path, not inside a literal. -/
inductive Visits : Json → List Step → Json → Prop
  | here (v : Json) : Visits v [] v
  | inside {v child w : Json} {step : Step} {path : List Step} (hchild : (step, child) ∈ v.children)
    (h : Visits child path w) : Visits v (step :: path) w

/-- the value is an object with a tag that names no kind -/
def HasUnknown (v : Json) (tag : String) : Prop :=
  ∃ members, v = .obj members ∧ get? "type" members = some (.str tag) ∧ tag ∉ knownTags

/-- no object outside literals has an unknown tag -/
def AllKnown (v : Json) : Prop := ∀ path w tag, v.Visits path w → ¬w.HasUnknown tag

/-- the first object with an unknown tag has this one -/
def FirstUnknown (v : Json) (tag : String) : Prop :=
  ∃ path w, v.Visits path w ∧ w.HasUnknown tag ∧
    ∀ path' w' tag', v.Visits path' w' → w'.HasUnknown tag' → ¬path' < path

variable {v w : Json} {tag : String} {path : List Step}

theorem isLiteral_iff {members : List (String × Json)} :
    isLiteral members ↔ get? "type" members = some (.str "Literal") := by
  rw [isLiteral]
  split
  · rename_i tag htag
    simp [htag]
  · rename_i hno
    exact iff_of_false Bool.false_ne_true (hno "Literal")

/-- a statement about a value may use the statements about the values right inside it -/
theorem children_induction {motive : Json → Prop} (step : ∀ v, (∀ c ∈ v.children, motive c.2) → motive v) (v : Json) :
    motive v := by
  have hleaf : ∀ v : Json, v.children = [] → motive v := by
    intro v hv
    apply step
    rw [hv]
    exact List.forall_mem_nil _
  induction v using Json.induction with
  | null => exact hleaf _ rfl
  | bool b => exact hleaf _ rfl
  | num n => exact hleaf _ rfl
  | str s => exact hleaf _ rfl
  | arr items ih =>
    apply step
    intro c hc
    obtain ⟨x, hx, rfl⟩ := List.mem_map.1 hc
    exact ih x.1 (List.fst_mem_of_mem_zipIdx hx)
  | obj members ih =>
    apply step
    intro c hc
    rw [children] at hc
    split at hc
    · cases hc
    · obtain ⟨m, hm, rfl⟩ := List.mem_map.1 hc
      exact ih m hm

/-! ## Values with their keys in order -/

theorem isSorted_of_mem_children (h : v.isSorted) : ∀ c ∈ v.children, c.2.isSorted := by
  intro c hc
  cases v with
  | arr items =>
    rw [isSorted, isSortedItems_iff] at h
    obtain ⟨x, hx, rfl⟩ := List.mem_map.1 hc
    exact h x.1 (List.fst_mem_of_mem_zipIdx hx)
  | obj members =>
    rw [isSorted, Bool.and_eq_true, isSortedMembers_iff] at h
    rw [children] at hc
    split at hc
    · cases hc
    · obtain ⟨m, hm, rfl⟩ := List.mem_map.1 hc
      exact h.2 m hm
  | _ => cases hc

/-- the values right inside a value come in the order of the steps to them -/
theorem pairwise_children (h : v.isSorted) : v.children.Pairwise fun c c' => c.1 < c'.1 := by
  cases v with
  | arr items =>
    have hrange : (items.zipIdx.map Prod.snd).Pairwise (· < ·) := by
      rw [List.zipIdx_map_snd]
      exact List.pairwise_lt_range'
    rw [children, List.pairwise_map]
    exact (List.pairwise_map.1 hrange).imp fun hlt => .item hlt
  | obj members =>
    rw [isSorted, Bool.and_eq_true, decide_eq_true_eq, List.pairwise_map] at h
    rw [children]
    split
    · exact .nil
    · rw [List.pairwise_map]
      exact h.1.imp fun hlt => .member hlt
  | _ => exact .nil

/-! ## The first unknown tag -/

theorem HasUnknown.eq {tag' : String} (h : v.HasUnknown tag) (h' : v.HasUnknown tag') : tag' = tag := by
  obtain ⟨members, rfl, htag, -⟩ := h
  obtain ⟨_, heq, htag', -⟩ := h'
  cases heq
  rw [htag] at htag'
  cases htag'
  rfl

/-- an object comes before what is inside it -/
theorem firstUnknown_of_hasUnknown {tag' : String} (h : v.HasUnknown tag) : v.FirstUnknown tag' ↔ tag' = tag := by
  constructor
  · intro hfirst
    obtain ⟨path, w, hw, hunknown, hleast⟩ := hfirst
    cases path with
    | nil =>
      cases hw
      exact h.eq hunknown
    | cons step path => exact absurd (List.nil_lt_cons step path) (hleast [] v tag (.here v) h)
  · intro heq
    subst heq
    refine ⟨[], v, .here v, h, ?_⟩
    intro path' w' tag'' _ _
    exact List.not_lt_nil path'

theorem allKnown_iff : v.AllKnown ↔ (∀ tag, ¬v.HasUnknown tag) ∧ ∀ c ∈ v.children, c.2.AllKnown := by
  constructor
  · intro h
    refine ⟨fun tag => h [] v tag (.here v), ?_⟩
    intro c hc path w tag hw
    exact h (c.1 :: path) w tag (.inside hc hw)
  · intro h path w tag hw
    obtain ⟨hv, hchildren⟩ := h
    cases hw with
    | here => exact hv tag
    | inside hc hw => exact hchildren _ hc _ w tag hw

/-- **The first unknown tag inside a value** is the first one of a value right inside it, and those before it have
none. -/
theorem firstUnknown_iff (hsorted : v.isSorted) (h : ∀ tag, ¬v.HasUnknown tag) :
    v.FirstUnknown tag ↔
      ∃ before c after, v.children = before ++ c :: after ∧ c.2.FirstUnknown tag ∧ ∀ b ∈ before, b.2.AllKnown := by
  have horder := pairwise_children hsorted
  constructor
  · intro hfirst
    obtain ⟨path, w, hw, hunknown, hleast⟩ := hfirst
    cases hw with
    | here => exact absurd hunknown (h tag)
    | @inside _ child _ step path hc hw =>
      obtain ⟨before, after, hsplit⟩ := List.append_of_mem hc
      refine ⟨before, (step, child), after, hsplit, ⟨path, w, hw, hunknown, ?_⟩, ?_⟩
      · intro path' w' tag' hw' hunknown' hlt
        exact hleast (step :: path') w' tag' (.inside hc hw') hunknown' (List.cons_lt_cons_iff.2 (Or.inr ⟨rfl, hlt⟩))
      · intro b hb path' w' tag' hw' hunknown'
        have hbefore : b ∈ v.children := by
          rw [hsplit]
          exact List.mem_append_left _ hb
        rw [hsplit, List.pairwise_append] at horder
        have hlt : b.1 < step := horder.2.2 b hb (step, child) List.mem_cons_self
        exact hleast (b.1 :: path') w' tag' (.inside hbefore hw') hunknown' (List.cons_lt_cons_iff.2 (Or.inl hlt))
  · intro hfirst
    obtain ⟨before, c, after, hsplit, ⟨path, w, hw, hunknown, hleast⟩, hbefore⟩ := hfirst
    have hc : c ∈ v.children := by simp [hsplit]
    refine ⟨c.1 :: path, w, .inside hc hw, hunknown, ?_⟩
    intro path' w' tag' hw' hunknown' hlt
    cases hw' with
    | here => exact h tag' hunknown'
    | @inside _ child' _ step' path' hc' hw' =>
      rw [hsplit] at hc' horder
      rw [List.pairwise_append, List.pairwise_cons] at horder
      rcases List.mem_append.1 hc' with hc' | hc'
      · exact hbefore _ hc' path' w' tag' hw' hunknown'
      rcases List.mem_cons.1 hc' with rfl | hc'
      · rcases List.cons_lt_cons_iff.1 hlt with hstep | ⟨-, hrest⟩
        · exact Step.lt_irrefl step' hstep
        · exact hleast path' w' tag' hw' hunknown' hrest
      · have hafter : c.1 < step' := horder.2.1.1 (step', child') hc'
        rcases List.cons_lt_cons_iff.1 hlt with hstep | ⟨hstep, -⟩
        · exact Step.lt_asymm hafter hstep
        · exact Step.lt_irrefl step' (hstep ▸ hafter)

/-! ## What the search finds -/

theorem unknownTagItems?_eq (items : List Json) : unknownTagItems? items = items.findSome? unknownTag? := by
  induction items with
  | nil => rfl
  | cons v items ih =>
    rw [unknownTagItems?, ih, List.findSome?_cons]
    cases v.unknownTag? <;> rfl

theorem unknownTagMembers?_eq (members : List (String × Json)) :
    unknownTagMembers? members = members.findSome? fun m => m.2.unknownTag? := by
  induction members with
  | nil => rfl
  | cons m members ih =>
    rw [unknownTagMembers?, ih, List.findSome?_cons]
    cases m.2.unknownTag? <;> rfl

theorem HasUnknown.unknownTag? (h : v.HasUnknown tag) : v.unknownTag? = some tag := by
  obtain ⟨members, rfl, htag, hunknown⟩ := h
  rw [Json.unknownTag?, htag]
  exact if_pos hunknown

/-- the search goes on with the values right inside -/
theorem unknownTag?_children (h : ∀ tag, ¬v.HasUnknown tag) :
    v.unknownTag? = v.children.findSome? fun c => c.2.unknownTag? := by
  cases v with
  | arr items =>
    have hitems : items.findSome? Json.unknownTag? = (items.zipIdx.map Prod.fst).findSome? Json.unknownTag? := by
      rw [List.zipIdx_map_fst]
    rw [Json.unknownTag?, unknownTagItems?_eq, hitems, children, List.findSome?_map, List.findSome?_map]
    rfl
  | obj members =>
    have hmembers : unknownTagMembers? members =
        (members.map fun m => (Step.member m.1, m.2)).findSome? fun c => c.2.unknownTag? := by
      rw [unknownTagMembers?_eq, List.findSome?_map]
      rfl
    rw [Json.unknownTag?, children]
    split
    · rename_i tag htag
      have hknown : tag ∈ knownTags := by
        by_contra hunknown
        exact h tag ⟨members, rfl, htag, hunknown⟩
      rw [if_neg (not_not.2 hknown), isLiteral, htag]
      by_cases hliteral : tag = "Literal"
      · simp [hliteral]
      · simp [hliteral, hmembers]
    · rename_i hno
      have hliteral : ¬isLiteral members := fun hl => hno "Literal" (isLiteral_iff.1 hl)
      rw [if_neg hliteral, hmembers]
  | _ => rfl

theorem unknownTag?_eq_none : v.unknownTag? = none ↔ v.AllKnown := by
  induction v using children_induction with
  | step v ih =>
    rw [allKnown_iff]
    by_cases h : ∀ tag, ¬v.HasUnknown tag
    · rw [unknownTag?_children h, List.findSome?_eq_none_iff]
      constructor
      · intro hnone
        exact ⟨h, fun c hc => (ih c hc).1 (hnone c hc)⟩
      · intro hall c hc
        exact (ih c hc).2 (hall.2 c hc)
    · obtain ⟨tag, htag⟩ := not_forall_not.1 h
      rw [htag.unknownTag?]
      exact iff_of_false (Option.some_ne_none tag) fun hall => h hall.1

/-- **The search finds the first unknown tag**, if the keys of every object are in order. -/
theorem unknownTag?_eq_some (hsorted : v.isSorted) : v.unknownTag? = some tag ↔ v.FirstUnknown tag := by
  induction v using children_induction with
  | step v ih =>
    by_cases h : ∀ tag, ¬v.HasUnknown tag
    · rw [unknownTag?_children h, firstUnknown_iff hsorted h, List.findSome?_eq_some_iff]
      have hiff : ∀ c ∈ v.children, (c.2.unknownTag? = some tag ↔ c.2.FirstUnknown tag) := fun c hc =>
        ih c hc (isSorted_of_mem_children hsorted c hc)
      constructor
      · intro hfound
        obtain ⟨before, c, after, hsplit, hc, hbefore⟩ := hfound
        refine ⟨before, c, after, hsplit, (hiff c ?_).1 hc, fun b hb => unknownTag?_eq_none.1 (hbefore b hb)⟩
        simp [hsplit]
      · intro hfirst
        obtain ⟨before, c, after, hsplit, hc, hbefore⟩ := hfirst
        refine ⟨before, c, after, hsplit, (hiff c ?_).2 hc, fun b hb => unknownTag?_eq_none.2 (hbefore b hb)⟩
        simp [hsplit]
    · obtain ⟨found, hfound⟩ := not_forall_not.1 h
      rw [firstUnknown_of_hasUnknown hfound, hfound.unknownTag?, Option.some.injEq]
      exact eq_comm

/-- a text is read with the keys of every object in order -/
theorem isSorted_of_parse? {s : String} (h : parse? s = some v) : v.isSorted := by
  rw [parse?] at h
  split at h
  · exact (Fragment.normal_of_toJson? h).isSorted
  · cases h

end Json

/-! ## Rendering a text -/

theorem renderTree_of_unknownTag? {s tag : String} {v : Json} (o : RenderOptions) (hparse : Json.parse? s = some v)
    (h : v.unknownTag? = some tag) : renderTree o s = .error (.unknownKind tag) := by
  simp only [renderTree, Program.load, hparse, h]
  rfl

/-- with all tags known, rendering is reading the tree -/
theorem renderTree_of_allKnown {s : String} {v : Json} (o : RenderOptions) (hparse : Json.parse? s = some v)
    (h : v.AllKnown) : renderTree o s = ((Program.decode v).map (·.render o)).mapError .tree := by
  simp only [renderTree, Program.load, hparse, Json.unknownTag?_eq_none.2 h]
  cases Program.decode v <;> rfl

/-- **Which error comes first.** A text that is not JSON is malformed. Of a value with unknown tags outside literals the
first one is reported, whatever else is wrong with it. Any other value is rendered if it is a tree, and malformed if it
is none. -/
theorem renderTree_unknownKind (o : RenderOptions) (s : String) :
    (knownTags.length = 14 ∧ knownTags.Nodup) ∧
    (Json.parse? s = none → renderTree o s = .error (.tree .malformed)) ∧
    ∀ v, Json.parse? s = some v →
      (∀ tag, renderTree o s = .error (.unknownKind tag) ↔ v.FirstUnknown tag) ∧
      ((∃ tag, renderTree o s = .error (.unknownKind tag)) ↔ ∃ path w tag, v.Visits path w ∧ w.HasUnknown tag) ∧
      (v.AllKnown →
        (∀ text, renderTree o s = .ok text ↔ ∃ p, Program.decode v = .ok p ∧ text = p.render o) ∧
        ∀ e, renderTree o s = .error e ↔ ∃ cause, Program.decode v = .error cause ∧ e = .tree cause) := by
  refine ⟨by decide, ?_, ?_⟩
  · intro hparse
    simp only [renderTree, Program.load, hparse]
    rfl
  intro v hparse
  have hsorted := Json.isSorted_of_parse? hparse
  have hfirst : ∀ tag, renderTree o s = .error (.unknownKind tag) ↔ v.FirstUnknown tag := by
    intro tag
    rw [← Json.unknownTag?_eq_some hsorted]
    constructor
    · intro herror
      cases htag : v.unknownTag? with
      | some found =>
        rw [renderTree_of_unknownTag? o hparse htag] at herror
        cases herror
        rfl
      | none =>
        rw [renderTree_of_allKnown o hparse (Json.unknownTag?_eq_none.1 htag)] at herror
        cases hdecode : Program.decode v <;> rw [hdecode] at herror <;> cases herror
    · exact renderTree_of_unknownTag? o hparse
  refine ⟨hfirst, ?_, ?_⟩
  · have hunknown : v.unknownTag? ≠ none ↔ ∃ path w tag, v.Visits path w ∧ w.HasUnknown tag := by
      rw [Ne, Json.unknownTag?_eq_none, Json.AllKnown]
      simp only [not_forall, not_not, exists_prop]
    simp only [hfirst, ← Json.unknownTag?_eq_some hsorted, ← hunknown, Option.ne_none_iff_exists, eq_comm]
  · intro hall
    rw [renderTree_of_allKnown o hparse hall]
    cases Program.decode v with
    | ok p => simp [Except.map, Except.mapError, eq_comm]
    | error cause => simp [Except.map, Except.mapError, eq_comm]

/-- an unknown tag inside a literal, two that are not, and no tree around them -/
def loopText : String :=
  "\x7b\"body\": [\x7b\"type\": \"Literal\", \"value\": \x7b\"type\": \"Jump\"\x7d\x7d, " ++
    "\x7b\"z\": \x7b\"type\": \"Wait\"\x7d, \"a\": \x7b\"type\": \"Loop\"\x7d\x7d]\x7d"

/-- the value of the text, with the keys in order -/
def loopValue : Json :=
  .obj [("body", .arr [.obj [("type", .str "Literal"), ("value", .obj [("type", .str "Jump")])],
    .obj [("a", .obj [("type", .str "Loop")]), ("z", .obj [("type", .str "Wait")])]])]

/-- a tree with an unknown tag inside a literal -/
def jumpText : String :=
  "\x7b\"type\": \"Program\", \"body\": [\x7b\"type\": \"ReturnStatement\", \"argument\": " ++
    "\x7b\"type\": \"Literal\", \"value\": \x7b\"type\": \"Jump\"\x7d\x7d\x7d]\x7d"

/-- its value -/
def jumpValue : Json :=
  .obj [("body", .arr [.obj [("argument", .obj [("type", .str "Literal"), ("value", .obj [("type", .str "Jump")])]),
    ("type", .str "ReturnStatement")]]), ("type", .str "Program")]

/-- the tree itself -/
def jumpTree : Program := ⟨[.ret (.literal (.obj [("type", .str "Jump")]))]⟩

theorem renderTree_unknownKind_loop :
    renderTree {} "[" = .error (.tree .malformed) ∧
    (Json.parse? loopText = some loopValue ∧ loopValue.FirstUnknown "Loop") ∧
    (Json.parse? jumpText = some jumpValue ∧ jumpValue.AllKnown ∧
      renderTree {} jumpText = .ok (jumpTree.render {})) := by
  have hloop : Json.parse? loopText = some loopValue := by cbv
  have htag : loopValue.unknownTag? = some "Loop" := by cbv
  have hjump : Json.parse? jumpText = some jumpValue := by cbv
  have hall : jumpValue.AllKnown := Json.unknownTag?_eq_none.1 (by cbv)
  have hdecode : Program.decode jumpValue = .ok jumpTree := by cbv
  refine ⟨(renderTree_unknownKind {} "[").2.1 (by cbv), ⟨hloop, ?_⟩, hjump, hall, ?_⟩
  · exact (((renderTree_unknownKind {} loopText).2.2 loopValue hloop).1 "Loop").1
      (renderTree_of_unknownTag? {} hloop htag)
  · exact ((((renderTree_unknownKind {} jumpText).2.2 jumpValue hjump).2.2 hall).1 _).2 ⟨_, hdecode, rfl⟩

end Flowchart
