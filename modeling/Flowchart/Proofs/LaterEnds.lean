/-
Ends that are not read.

A flow can come to several ends. The first one in depth-first order is what the function returns; the properties of the
others are never read. Here the properties of one end are replaced (`withProperties`). The document has the same edges,
and its nodes have the same ids, kinds and children, so that it is traversed alike.

- `Spared`: from a state on, a list of nodes is checked without reading the node with an id as the first end.
- `build_withProperties`: replacing the properties of an end that is not the first one changes no tree.
-/
import Flowchart.Proofs.Success

namespace Flowchart

open Statement

/-- the node with other properties, if it has the id -/
def Node.withProperties (id : String) (properties : List (String × Json)) (n : Node) : Node :=
  if n.id = id then { n with properties } else n

/-- the document with other properties for a node -/
def Document.withProperties (d : Document) (id : String) (properties : List (String × Json)) : Document :=
  { d with nodes := d.nodes.map (Node.withProperties id properties) }

namespace Node

variable (id : String) (properties : List (String × Json)) (n : Node)

@[simp] theorem id_withProperties : (n.withProperties id properties).id = n.id := by
  unfold withProperties
  split <;> rfl

@[simp] theorem kind_withProperties : (n.withProperties id properties).kind = n.kind := by
  unfold withProperties
  split <;> rfl

@[simp] theorem children_withProperties : (n.withProperties id properties).children = n.children := by
  unfold withProperties
  split <;> rfl

theorem withProperties_of_ne {id : String} {n : Node} (h : n.id ≠ id) (properties : List (String × Json)) :
    n.withProperties id properties = n := if_neg h

end Node

namespace Document

variable {d : Document} {id : String} {properties : List (String × Json)}

theorem node?_withProperties (x : String) :
    (d.withProperties id properties).node? x = (d.node? x).map (Node.withProperties id properties) := by
  unfold node? withProperties
  rw [List.find?_map]
  congr 2
  funext n
  simp

theorem ids_withProperties : (d.withProperties id properties).ids = d.ids := by
  unfold ids withProperties
  rw [List.map_map]
  exact List.map_congr_left fun n _ => Node.id_withProperties id properties n

theorem starts_withProperties :
    (d.withProperties id properties).starts = d.starts.map (Node.withProperties id properties) := by
  unfold starts withProperties
  rw [List.filter_map]
  congr 2
  funext n
  simp

theorem Sound.withProperties (h : d.Sound) : (d.withProperties id properties).Sound := by
  refine ⟨?_, ?_⟩
  · rw [ids_withProperties]
    exact h.ids_nodup
  · rw [ids_withProperties]
    exact h.edges

section

variable (n : Node) (k : Continuation)

theorem firstBlock_withProperties :
    (d.withProperties id properties).firstBlock (n.withProperties id properties) = d.firstBlock n := by
  unfold firstBlock target?
  simp [withProperties]

theorem secondBlock_withProperties :
    (d.withProperties id properties).secondBlock (n.withProperties id properties) = d.secondBlock n := by
  unfold secondBlock target?
  simp [withProperties]

theorem after_withProperties :
    (d.withProperties id properties).after (n.withProperties id properties) k = d.after n k := by
  unfold after next? target?
  simp [withProperties]

end

end Document

/-! ## Nodes that are not read as the first end -/

/-- the node with the id is not the first end of these nodes, or the function returned before -/
def Spared (id : String) (r : Option Expression) (ns : List Node) : Prop :=
  r = none → ∀ n, ns.find? Node.isEnd = some n → n.id ≠ id

namespace Spared

variable {id client : String} {r r' : Option Expression} {ns ms : List Node}

theorem left (h : Spared id r (ns ++ ms)) : Spared id r ns := by
  intro hr n hn
  refine h hr n ?_
  rw [List.find?_append, hn]
  rfl

/-- after the checks of the first nodes, the others are spared: if nothing is returned yet, there was no end -/
theorem right (h : Spared id r (ns ++ ms)) (hc : ns.foldlM (fun r n => n.check client r) r = .ok r') :
    Spared id r' ms := by
  rintro rfl n hn
  cases r with
  | some a =>
    obtain ⟨-, hr⟩ := Node.foldlM_check_some.1 hc
    cases hr
  | none =>
    refine h rfl n ?_
    obtain ⟨-, hfirst⟩ := Node.foldlM_check_none.1 hc
    cases hf : ns.find? Node.isEnd with
    | none => rw [List.find?_append, hf, hn]; rfl
    | some m =>
      rw [hf] at hfirst
      obtain ⟨a, -, ha⟩ := hfirst
      cases ha

end Spared

namespace Document

variable {d : Document} {id client : String} {properties : List (String × Json)} {atEnd : Expression → List Statement}
  {path : List String} {via : String} {r : Option Expression}

/-- a node is read alike: it is not replaced, or it is an end and the function returned before -/
theorem run_around_withProperties {n : Node} (hend : n.id = id → n.isEnd) (hs : Spared id r [n]) :
    ((n.withProperties id properties).around client atEnd).run r = (n.around client atEnd).run r := by
  by_cases hid : n.id = id
  · cases r with
    | none => exact absurd hid (hs rfl n (by simp [hend hid]))
    | some a =>
      have hk : n.kind = .finish := Node.isEnd_iff.1 (hend hid)
      rw [Node.run_around_finish_some hk, Node.run_around_finish_some (by simpa using hk)]
  · rw [Node.withProperties_of_ne hid]

theorem run_enterAll_withProperties {cs : List Visit} {q : List Statement × Option Expression}
    (ih : ∀ (c : Visit) r q, (d.direct client atEnd path c.id via c.k).run r = .ok q → Spared id r (d.tour path c) →
      ((d.withProperties id properties).direct client atEnd path c.id via c.k).run r = .ok q)
    (h : (enterAll (d.descent client atEnd path via) cs).run r = .ok q)
    (hs : Spared id r (cs.flatMap (d.tour path))) :
    (enterAll ((d.withProperties id properties).descent client atEnd path via) cs).run r = .ok q := by
  revert hs
  refine enterAll_induction (motive := fun cs r q => Spared id r (cs.flatMap (d.tour path)) →
    (enterAll ((d.withProperties id properties).descent client atEnd path via) cs).run r = .ok q) (fun r _ => rfl) ?_ h
  intro c cs r first r1 rest r' hfirst _ ihcs hs
  rw [List.flatMap_cons] at hs
  have hrest := ihcs (hs.right (foldlM_check_of_direct hfirst))
  exact run_enterAll_cons_eq_ok.2 ⟨first, r1, rest, ih c r _ hfirst hs.left, hrest, rfl⟩

/-- **Ends that are not read.** A compilation that succeeds gives the same with other properties for an end that it does
not read. -/
theorem run_direct_withProperties (hend : ∀ n, d.node? id = some n → n.isEnd) {c : Visit}
    {q : List Statement × Option Expression} (h : (d.direct client atEnd path c.id via c.k).run r = .ok q)
    (hs : Spared id r (d.tour path c)) :
    ((d.withProperties id properties).direct client atEnd path c.id via c.k).run r = .ok q := by
  revert hs
  refine d.direct_induction client atEnd (motive := fun path c via r q => Spared id r (d.tour path c) →
    ((d.withProperties id properties).direct client atEnd path c.id via c.k).run r = .ok q) ?_ h
  intro path c via n r q hn hp h ih hs
  have hn' : (d.withProperties id properties).node? c.id = some (n.withProperties id properties) := by
    rw [node?_withProperties, hn, Option.map_some]
  rw [direct_enter hn' hp, Node.run_direct_eq_ok, firstBlock_withProperties, secondBlock_withProperties,
    after_withProperties]
  obtain ⟨put, r1, first, r2, second, r3, rest, h0, h1, h2, h3, hq⟩ := Node.run_direct_eq_ok.1 h
  -- the nodes in the order in which they are entered; each list is spared in the state that it is entered with
  rw [tour_enter hn hp, ← List.singleton_append, steps, List.append_assoc, List.flatMap_append,
    List.flatMap_append] at hs
  have hcheck : [n].foldlM (fun r n => n.check client r) r = .ok r1 := by
    rw [List.foldlM_cons, Node.check_of_around h0]
    rfl
  have hs1 := hs.right hcheck
  have hs2 := hs1.right (foldlM_check_of_enterAll h1)
  have hs3 := hs2.right (foldlM_check_of_enterAll h2)
  have hend' : n.id = id → n.isEnd := by
    rintro rfl
    exact hend n (node?_id hn ▸ hn)
  refine ⟨put, r1, first, r2, second, r3, rest, ?_, ?_, ?_, ?_, hq⟩
  · rw [run_around_withProperties hend' hs.left, h0]
  · exact run_enterAll_withProperties ih h1 hs1.left
  · exact run_enterAll_withProperties ih h2 hs2.left
  · exact run_enterAll_withProperties ih h3 hs3

theorem buildDirect_withProperties (hend : ∀ n, d.node? id = some n → n.isEnd)
    (hfirst : ∀ n, d.firstEnd? = some n → n.id ≠ id) {q : List Statement × Option Expression}
    (h : d.buildDirect client atEnd = .ok q) :
    (d.withProperties id properties).buildDirect client atEnd = .ok q := by
  obtain ⟨hsound, n, hn, h⟩ := buildDirect_eq_ok.1 h
  have hs : Spared id none (d.tour [] ⟨n.id, .follow⟩) := by
    rw [← traversal_of_starts hn]
    exact fun _ => hfirst
  refine buildDirect_eq_ok.2 ⟨hsound.withProperties, n.withProperties id properties, ?_, ?_⟩
  · rw [starts_withProperties, hn, List.map_singleton]
  · rw [Node.id_withProperties]
    exact run_direct_withProperties hend h hs

end Document

/-- **Later ends are not read.** A document that is compiled has the same tree with other properties for an end that is
not the first one. -/
theorem build_withProperties {d : Document} {o : Options} {p : Program} (h : (d.build o).outcome = .ok p) {id : String}
    (hend : ∀ n, d.node? id = some n → n.isEnd) (hfirst : ∀ n, d.firstEnd? = some n → n.id ≠ id)
    (properties : List (String × Json)) : ((d.withProperties id properties).build o).outcome = .ok p := by
  have hbuild := build_agrees d o
  rw [h] at hbuild
  obtain ⟨q, hq, hbody⟩ := hbuild.exists_right
  have hbuild' := build_agrees (d.withProperties id properties) o
  rw [Document.buildDirect_withProperties hend hfirst hq] at hbuild'
  obtain ⟨p', hp', hbody'⟩ := hbuild'.exists_left
  obtain ⟨body⟩ := p
  obtain ⟨body'⟩ := p'
  rw [hp', show body' = body from hbody'.trans hbody.symm]

end Flowchart
