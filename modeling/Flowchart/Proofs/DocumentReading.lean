/-
Documents read from text and written again.

A document has many spellings: kinds have two names and can be objects, records can be arrays, fields can be left out or
stand beside fields that nobody reads, and the members of a property can be in any order and repeat. What is read
forgets the spelling. It is normal: the keys of every object rise and nothing nests too deep. A normal document is read
back from the text that it is written as, so this text is the one normal form of all spellings.

- `Fragment.normal_of_toJson?`: a value that is read is normal.
- `Document.normal_of_decode`: so is every node of a document that is read.
- `Document.decode_fragment`: a normal document is read back.
- `Document.parse_toText`: writing what was read and reading it again gives the same document.
-/
import Flowchart.Document.Decode
import Flowchart.Document.Encode
import Flowchart.Proofs.JsonReading
import Flowchart.Proofs.Outcome
import Mathlib

namespace Flowchart

/-! ## Normal values -/

namespace Json

variable {depth : Nat} {key : String} {value : Json} {members : List (String × Json)}

theorem isSortedItems_iff {items : List Json} : isSortedItems items ↔ ∀ v ∈ items, v.isSorted := by
  induction items with
  | nil => simp [isSortedItems]
  | cons v items ih => simp [isSortedItems, ih]

theorem isSortedMembers_iff : isSortedMembers members ↔ ∀ m ∈ members, m.2.isSorted := by
  induction members with
  | nil => simp [isSortedMembers]
  | cons m members ih => simp [isSortedMembers, ih]

theorem nestingItems_le {items : List Json} : nestingItems items ≤ depth ↔ ∀ v ∈ items, v.nesting ≤ depth := by
  induction items with
  | nil => simp [nestingItems]
  | cons v items ih => simp [nestingItems, ih]

theorem nestingMembers_le : nestingMembers members ≤ depth ↔ ∀ m ∈ members, m.2.nesting ≤ depth := by
  induction members with
  | nil => simp [nestingMembers]
  | cons m members ih => simp [nestingMembers, ih]

/-- a value as it is read: the keys of every object rise, and it nests at most `depth` deep -/
structure Normal (depth : Nat) (v : Json) : Prop where
  isSorted : v.isSorted
  nesting_le : v.nesting ≤ depth

/-- members as they are read: their keys rise, and their values nest at most `depth` deep -/
structure NormalMembers (depth : Nat) (members : List (String × Json)) : Prop where
  rising : (members.map (·.1)).Pairwise (· < ·)
  values : ∀ m ∈ members, m.2.Normal depth

theorem Normal.arr {items : List Json} (h : ∀ v ∈ items, v.Normal depth) : (Json.arr items).Normal (depth + 1) where
  isSorted := by
    rw [Json.isSorted]
    exact isSortedItems_iff.2 fun v hv => (h v hv).isSorted
  nesting_le := by
    rw [nesting]
    exact Nat.succ_le_succ (nestingItems_le.2 fun v hv => (h v hv).nesting_le)

theorem NormalMembers.obj (h : NormalMembers depth members) : (Json.obj members).Normal (depth + 1) where
  isSorted := by
    rw [Json.isSorted, Bool.and_eq_true, decide_eq_true_eq]
    exact ⟨h.rising, isSortedMembers_iff.2 fun m hm => (h.values m hm).isSorted⟩
  nesting_le := by
    rw [nesting]
    exact Nat.succ_le_succ (nestingMembers_le.2 fun m hm => (h.values m hm).nesting_le)

theorem mem_insertMember {m : String × Json} (h : m ∈ insertMember key value members) :
    m = (key, value) ∨ m ∈ members := by
  induction members with
  | nil => exact Or.inl (List.mem_singleton.1 h)
  | cons x rest ih =>
    rw [insertMember] at h
    split at h
    · exact List.mem_cons.1 h
    · rcases List.mem_cons.1 h with h | h
      · exact Or.inl h
      · exact Or.inr (List.mem_cons_of_mem x h)
    · rcases List.mem_cons.1 h with rfl | h
      · exact Or.inr List.mem_cons_self
      · rcases ih h with h | h
        · exact Or.inl h
        · exact Or.inr (List.mem_cons_of_mem x h)

/-- one more member keeps the keys rising -/
theorem pairwise_insertMember (h : (members.map (·.1)).Pairwise (· < ·)) :
    ((insertMember key value members).map (·.1)).Pairwise (· < ·) := by
  induction members with
  | nil => exact List.pairwise_singleton _ _
  | cons x rest ih =>
    rw [List.map_cons, List.pairwise_cons] at h
    obtain ⟨hx, hrest⟩ := h
    rw [insertMember]
    split
    · rename_i hcompare
      have hlt : key < x.1 := compareOfLessAndEq_eq_lt.1 hcompare
      refine List.pairwise_cons.2 ⟨?_, List.pairwise_cons.2 ⟨hx, hrest⟩⟩
      intro k hk
      rcases List.mem_cons.1 hk with rfl | hk
      · exact hlt
      · exact lt_trans hlt (hx k hk)
    · rename_i hcompare
      have heq : key = x.1 := compare_eq_iff_eq.1 hcompare
      subst heq
      exact List.pairwise_cons.2 ⟨hx, hrest⟩
    · rename_i hcompare
      have hgt : x.1 < key := compare_gt_iff_gt.1 hcompare
      refine List.pairwise_cons.2 ⟨?_, ih hrest⟩
      intro k hk
      obtain ⟨m, hm, rfl⟩ := List.mem_map.1 hk
      rcases mem_insertMember hm with rfl | hm
      · exact hgt
      · exact hx m.1 (List.mem_map_of_mem hm)

theorem mem_sortMembers {m : String × Json} (h : m ∈ sortMembers members) : m ∈ members := by
  have hfold : ∀ before : List (String × Json),
      m ∈ members.foldl (fun sorted m => insertMember m.1 m.2 sorted) before → m ∈ before ∨ m ∈ members := by
    clear h
    induction members with
    | nil => exact fun before h => Or.inl h
    | cons x rest ih =>
      intro before h
      rcases ih _ h with h | h
      · rcases mem_insertMember h with rfl | h
        · exact Or.inr List.mem_cons_self
        · exact Or.inl h
      · exact Or.inr (List.mem_cons_of_mem x h)
  rcases hfold [] h with h | h
  · cases h
  · exact h

theorem pairwise_sortMembers (members : List (String × Json)) :
    ((sortMembers members).map (·.1)).Pairwise (· < ·) := by
  unfold sortMembers
  apply List.foldlRecOn (motive := fun sorted : List (String × Json) => (sorted.map (·.1)).Pairwise (· < ·))
  · exact .nil
  · intro sorted h m _
    exact pairwise_insertMember h

/-- members are sorted when they are read -/
theorem normalMembers_sortMembers (h : ∀ m ∈ members, m.2.Normal depth) :
    NormalMembers depth (sortMembers members) where
  rising := pairwise_sortMembers members
  values := fun m hm => h m (mem_sortMembers hm)

end Json

/-! ## Values that are read -/

namespace Fragment

/-- Induction over a fragment: a statement about an array or object may use the statements about what it holds. -/
theorem induction {motive : Fragment → Prop} (absent : motive .absent) (null : motive .null)
    (bool : ∀ b, motive (.bool b)) (num : ∀ n, motive (.num n)) (str : ∀ s, motive (.str s))
    (arr : ∀ items closed, (∀ v ∈ items, motive v) → motive (.arr items closed))
    (obj : ∀ members closed, (∀ m ∈ members, motive m.2) → motive (.obj members closed)) (v : Fragment) : motive v := by
  refine @Fragment.rec motive (fun items => ∀ v ∈ items, motive v) (fun members => ∀ m ∈ members, motive m.2)
    (fun m => motive m.2) absent null bool num str (fun items closed h => arr items closed h)
    (fun members closed h => obj members closed h) ?_ ?_ ?_ ?_ ?_ v
  · nofun
  · intro v items hv hitems
    exact List.forall_mem_cons.2 ⟨hv, hitems⟩
  · nofun
  · intro m members hm hmembers
    exact List.forall_mem_cons.2 ⟨hm, hmembers⟩
  · intro k v hv
    exact hv

variable {depth : Nat}

theorem exists_of_toJsonItems? {fs : List Fragment} {vs : List Json} (h : toJsonItems? depth fs = some vs) :
    ∀ v ∈ vs, ∃ f ∈ fs, f.toJson? depth = some v := by
  induction fs generalizing vs with
  | nil =>
    cases h
    nofun
  | cons f fs ih =>
    rw [toJsonItems?] at h
    split at h
    · rename_i v vs' hv hvs
      cases h
      intro w hw
      rcases List.mem_cons.1 hw with rfl | hw
      · exact ⟨f, List.mem_cons_self, hv⟩
      · obtain ⟨g, hg, hread⟩ := ih hvs w hw
        exact ⟨g, List.mem_cons_of_mem f hg, hread⟩
    · cases h

theorem exists_of_toJsonMembers? {fs : List (Option String × Fragment)} {ms : List (String × Json)}
    (h : toJsonMembers? depth fs = some ms) : ∀ m ∈ ms, ∃ f ∈ fs, f.2.toJson? depth = some m.2 := by
  induction fs generalizing ms with
  | nil =>
    cases h
    nofun
  | cons f fs ih =>
    obtain ⟨key, f⟩ := f
    cases key with
    | none => cases h
    | some key =>
      rw [toJsonMembers?] at h
      split at h
      · rename_i v ms' hv hms
        cases h
        intro m hm
        rcases List.mem_cons.1 hm with rfl | hm
        · exact ⟨_, List.mem_cons_self, hv⟩
        · obtain ⟨g, hg, hread⟩ := ih hms m hm
          exact ⟨g, List.mem_cons_of_mem _ hg, hread⟩
      · cases h

/-- **A value that is read is normal.** -/
theorem normal_of_toJson? {f : Fragment} {v : Json} (h : f.toJson? depth = some v) : v.Normal depth := by
  induction f using Fragment.induction generalizing depth v with
  | absent => cases h
  | null =>
    cases h
    exact ⟨rfl, Nat.zero_le _⟩
  | bool b =>
    cases h
    exact ⟨rfl, Nat.zero_le _⟩
  | num n =>
    obtain ⟨n, -, rfl⟩ := Option.map_eq_some_iff.1 h
    exact ⟨rfl, Nat.zero_le _⟩
  | str s =>
    obtain ⟨s, -, rfl⟩ := Option.map_eq_some_iff.1 h
    exact ⟨rfl, Nat.zero_le _⟩
  | arr items closed ih =>
    rw [toJson?] at h
    split at h
    · cases h
    · rename_i hdepth
      obtain ⟨vs, hvs, rfl⟩ := Option.map_eq_some_iff.1 h
      cases depth with
      | zero => exact absurd (Or.inl rfl) hdepth
      | succ depth =>
        apply Json.Normal.arr
        intro v hv
        obtain ⟨f, hf, hread⟩ := exists_of_toJsonItems? hvs v hv
        exact ih f hf hread
  | obj members closed ih =>
    rw [toJson?] at h
    split at h
    · cases h
    · rename_i hdepth
      obtain ⟨ms, hms, rfl⟩ := Option.map_eq_some_iff.1 h
      cases depth with
      | zero => exact absurd (Or.inl rfl) hdepth
      | succ depth =>
        apply Json.NormalMembers.obj
        apply Json.normalMembers_sortMembers
        intro m hm
        obtain ⟨f, hf, hread⟩ := exists_of_toJsonMembers? hms m hm
        exact ih f hf hread

end Fragment

/-! ## Documents that are read -/

open Fragment

theorem exists_of_option_mapM_ok {ε α β : Type} {f : α → Except ε β} {x : Option α} {y : Option β}
    (h : x.mapM f = .ok y) : ∀ b ∈ y, ∃ a, f a = .ok b := by
  cases x with
  | none =>
    cases h
    nofun
  | some a =>
    obtain ⟨b, hb, rfl⟩ := map_eq_ok.1 h
    rintro _ ⟨⟩
    exact ⟨a, hb⟩

namespace Fragment

/-- the elements of a list that is read are read one by one -/
theorem exists_of_list {α : Type} {item : Fragment → Except ReadError α} {v : Fragment} {values : List α}
    (h : v.list item = .ok values) : ∀ a ∈ values, ∃ w, item w = .ok a := by
  cases v with
  | arr items closed =>
    obtain ⟨values', hvalues, h⟩ := bind_eq_ok.1 h
    split at h
    · rw [pure_eq_ok] at h
      subst h
      intro a ha
      obtain ⟨w, -, hw⟩ := exists_of_mapM_ok hvalues a ha
      exact ⟨w, hw⟩
    · cases h
  | _ => cases h

/-- what every field keeps is kept by all members of an object -/
theorem members_induction {σ : Type} {read : σ → String → Fragment → Except ReadError σ} {motive : σ → Prop}
    (step : ∀ state key v state', motive state → read state key v = .ok state' → motive state') {state state' : σ}
    {ms : List (Option String × Fragment)} {closed : Bool} (hstart : motive state)
    (h : Fragment.members read state ms closed = .ok state') : motive state' := by
  obtain ⟨last, hlast, h⟩ := bind_eq_ok.1 h
  split at h
  · rw [pure_eq_ok] at h
    subst h
    clear h
    induction ms generalizing state with
    | nil =>
      cases hlast
      exact hstart
    | cons m ms ih =>
      rw [List.foldlM_cons, bind_eq_ok] at hlast
      obtain ⟨next, hnext, hlast⟩ := hlast
      split at hnext
      · exact ih (step state _ _ next hstart hnext) hlast
      · cases hnext
  · cases h

end Fragment

namespace Node

/-- a node as it is read, with values of properties that nest at most `depth` deep -/
def Normal (depth : Nat) (n : Node) : Prop := Json.NormalMembers depth n.properties

theorem normal_of_decodeProperties {depth : Nat} {v : Fragment} {ps : List (String × Json)}
    (h : decodeProperties depth v = .ok ps) : Json.NormalMembers depth ps := by
  cases v with
  | obj members closed =>
    cases hms : toJsonMembers? depth members with
    | none => simp [decodeProperties, hms] at h
    | some ms =>
      cases closed with
      | false => simp [decodeProperties, hms] at h
      | true =>
        simp only [decodeProperties, hms, Except.ok.injEq] at h
        subst h
        apply Json.normalMembers_sortMembers
        intro m hm
        obtain ⟨f, -, hread⟩ := exists_of_toJsonMembers? hms m hm
        exact normal_of_toJson? hread
  | _ => cases h

/-- the properties, if any have been read -/
def Parts.Normal (depth : Nat) (p : Parts) : Prop := ∀ ps ∈ p.properties, Json.NormalMembers depth ps

theorem Parts.Normal.read {depth : Nat} {p p' : Parts} {key : String} {v : Fragment} (h : p.Normal depth)
    (hread : p.read depth key v = .ok p') : p'.Normal depth := by
  unfold Parts.read at hread
  split at hread
  all_goals
    simp only [bind_eq_ok, pure_eq_ok] at hread
  · obtain ⟨-, -, -, -, rfl⟩ := hread
    exact h
  · obtain ⟨-, -, -, -, rfl⟩ := hread
    exact h
  · obtain ⟨-, -, ps, hps, rfl⟩ := hread
    rintro _ ⟨⟩
    exact normal_of_decodeProperties hps
  · obtain ⟨-, -, -, -, rfl⟩ := hread
    exact h
  · obtain ⟨-, -, rfl⟩ := hread
    exact h

theorem normal_getD {depth : Nat} {ps : Option (List (String × Json))} (h : ∀ x ∈ ps, Json.NormalMembers depth x) :
    Json.NormalMembers depth (ps.getD []) := by
  cases ps with
  | none => exact ⟨.nil, nofun⟩
  | some ps => exact h ps rfl

/-- a node that is read is normal, be it an object or an array -/
theorem normal_of_decode {depth : Nat} {v : Fragment} {n : Node} (h : decode depth v = .ok n) :
    n.Normal (depth - 2) := by
  cases v with
  | obj members closed =>
    simp only [decode, bind_eq_ok, pure_eq_ok] at h
    obtain ⟨p, hp, id, -, kind, -, rfl⟩ := h
    apply normal_getD
    exact members_induction (motive := Parts.Normal (depth - 2)) (fun _ _ _ _ hp hread => hp.read hread)
      (nofun : Parts.Normal (depth - 2) {}) hp
  | arr items closed =>
    simp only [decode, bind_eq_ok, pure_eq_ok, Prod.exists] at h
    obtain ⟨_, _, -, _, -, id, -, _, _, -, _, -, kind, -, _, _, -, ps, hps, _, _, -, cs, -, _, -, rfl⟩ := h
    apply normal_getD
    intro x hx
    obtain ⟨v, hv⟩ := exists_of_option_mapM_ok hps x hx
    exact normal_of_decodeProperties hv
  | _ => cases h

end Node

namespace Document

/-- how deep the value of a property may nest -/
def propertyDepth : Nat := depthLimit - 2 - 2

/-- a document as it is read -/
def Normal (d : Document) : Prop := ∀ n ∈ d.nodes, n.Normal propertyDepth

theorem normal_of_decodeNodes {v : Fragment} {nodes : List Node} (h : decodeNodes v = .ok nodes) :
    ∀ n ∈ nodes, n.Normal propertyDepth := by
  intro n hn
  obtain ⟨w, hw⟩ := exists_of_list h n hn
  exact Node.normal_of_decode hw

/-- the nodes, if they have been read -/
def Parts.Normal (p : Parts) : Prop := ∀ nodes ∈ p.nodes, ∀ n ∈ nodes, n.Normal propertyDepth

theorem Parts.Normal.read {p p' : Parts} {key : String} {v : Fragment} (h : p.Normal)
    (hread : p.read key v = .ok p') : p'.Normal := by
  unfold Parts.read at hread
  split at hread
  · simp only [bind_eq_ok, pure_eq_ok] at hread
    obtain ⟨-, -, nodes, hnodes, rfl⟩ := hread
    rintro _ ⟨⟩
    exact normal_of_decodeNodes hnodes
  · split at hread
    · simp only [bind_eq_ok, pure_eq_ok] at hread
      obtain ⟨-, -, -, -, rfl⟩ := hread
      exact h
    · simp only [bind_eq_ok, pure_eq_ok] at hread
      obtain ⟨-, -, rfl⟩ := hread
      exact h

/-- **A document that is read is normal**, whatever its spelling. -/
theorem normal_of_decode {v : Fragment} {d : Document} (h : decode v = .ok d) : d.Normal := by
  cases v with
  | obj members closed =>
    simp only [decode, bind_eq_ok, pure_eq_ok] at h
    obtain ⟨p, hp, nodes, hnodes, rfl⟩ := h
    have hparts : p.Normal :=
      members_induction (motive := Parts.Normal) (fun _ _ _ _ hp hread => hp.read hread) (nofun : Parts.Normal {}) hp
    cases hp' : p.nodes with
    | none =>
      rw [hp'] at hnodes
      cases hnodes
    | some ns =>
      rw [hp'] at hnodes
      cases hnodes
      exact hparts nodes hp'
  | arr items closed =>
    simp only [decode, bind_eq_ok, pure_eq_ok, Prod.exists] at h
    obtain ⟨_, _, -, _, -, nodes, hnodes, _, _, -, edges, -, _, -, rfl⟩ := h
    exact normal_of_decodeNodes hnodes
  | _ => cases h

end Document

/-! ## Documents that are written -/

theorem fragmentItems_map {α : Type} (encode : α → Json) (xs : List α) :
    Json.fragmentItems (xs.map encode) = xs.map fun x => (encode x).fragment := by
  induction xs with
  | nil => rfl
  | cons x xs ih => rw [List.map_cons, Json.fragmentItems, ih, List.map_cons]

/-- a list is read back if its elements are -/
theorem Fragment.list_fragment {α : Type} {item : Fragment → Except ReadError α} {encode : α → Json} {xs : List α}
    (h : ∀ x ∈ xs, item (encode x).fragment = .ok x) : list item (Json.arr (xs.map encode)).fragment = .ok xs := by
  have hitems : (xs.map fun x => (encode x).fragment).mapM item = .ok xs := by
    induction xs with
    | nil => rfl
    | cons x xs ih =>
      obtain ⟨hx, hxs⟩ := List.forall_mem_cons.1 h
      rw [List.map_cons, List.mapM_cons, hx, ok_bind, ih hxs]
      rfl
  rw [Json.fragment, fragmentItems_map, Fragment.list, hitems]
  rfl

theorem NodeKind.decode_name (k : NodeKind) : decode (.str (some k.name)) = .ok k := by
  cases k <;> rfl

theorem Node.decodeProperties_fragment {depth : Nat} {ps : List (String × Json)} (h : Json.NormalMembers depth ps) :
    decodeProperties depth (Json.obj ps).fragment = .ok ps := by
  have hnesting : Json.nestingMembers ps ≤ depth := Json.nestingMembers_le.2 fun m hm => (h.values m hm).nesting_le
  have hsorted : Json.sortedMembers ps = ps := by
    replace h := h.values
    clear hnesting
    induction ps with
    | nil => rfl
    | cons m ps ih =>
      obtain ⟨hm, hps⟩ := List.forall_mem_cons.1 h
      rw [Json.sortedMembers, Json.sorted_of_isSorted m.2 hm.isSorted, ih hps]
  have hread : toJsonMembers? depth (Json.fragmentMembers ps) = some ps := by
    rw [Json.toJsonMembers?_fragmentMembers (fun m _ => m.2.toJson?_fragment), if_pos hnesting, hsorted]
  rw [Json.fragment]
  simp only [decodeProperties, hread]
  rw [Json.sortMembers_of_pairwise h.rising]

section

variable {σ : Type} {read : σ → String → Fragment → Except ReadError σ}

@[simp] theorem Fragment.members_nil (state : σ) : Fragment.members read state [] true = .ok state := rfl

@[simp] theorem Fragment.members_cons (state : σ) (key : String) (v : Fragment) (ms : List (Option String × Fragment))
    (closed : Bool) : Fragment.members read state ((some key, v) :: ms) closed =
      read state key v >>= fun state => Fragment.members read state ms closed := by
  cases h : read state key v <;> simp [Fragment.members, h]

end

/-- a normal node is read back -/
theorem Node.decode_fragment {depth : Nat} {n : Node} (h : n.Normal (depth - 2)) :
    decode depth n.toJson.fragment = .ok n := by
  obtain ⟨id, kind, properties, children⟩ := n
  -- the fields one after another, in the order in which they are written
  have hid : Parts.read (depth - 2) {} "id" (.str (some id)) = .ok ⟨some id, none, none, none⟩ := rfl
  have hkind : Parts.read (depth - 2) ⟨some id, none, none, none⟩ "type" (.str (some kind.name)) =
      .ok ⟨some id, some kind, none, none⟩ := by
    simp only [Parts.read, once, NodeKind.decode_name]
    rfl
  have hproperties : Parts.read (depth - 2) ⟨some id, some kind, none, none⟩ "properties"
      (Json.obj properties).fragment = .ok ⟨some id, some kind, some properties, none⟩ := by
    have hread : decodeProperties (depth - 2) (Json.obj properties).fragment = .ok properties :=
      decodeProperties_fragment h
    simp only [Parts.read, once, hread]
    rfl
  have hchildren : Parts.read (depth - 2) ⟨some id, some kind, some properties, none⟩ "children"
      (Json.arr (children.map .str)).fragment = .ok ⟨some id, some kind, some properties, some children⟩ := by
    have hread : Fragment.list text (Json.arr (children.map .str)).fragment = .ok children :=
      Fragment.list_fragment fun _ _ => rfl
    simp only [Parts.read, once, hread]
    rfl
  cases children with
  | nil =>
    have hfragment : (Node.mk id kind properties []).toJson.fragment = .obj [(some "id", .str (some id)),
        (some "type", .str (some kind.name)), (some "properties", (Json.obj properties).fragment)] true := rfl
    simp only [hfragment, decode, members_cons, hid, hkind, hproperties, ok_bind, members_nil]
    rfl
  | cons child children =>
    have hfragment : (Node.mk id kind properties (child :: children)).toJson.fragment = .obj [
        (some "id", .str (some id)), (some "type", .str (some kind.name)),
        (some "properties", (Json.obj properties).fragment),
        (some "children", (Json.arr ((child :: children).map .str)).fragment)] true := rfl
    simp only [hfragment, decode, members_cons, hid, hkind, hproperties, hchildren, ok_bind, members_nil]
    rfl

/-- an edge is read back -/
theorem Edge.decode_fragment (e : Edge) : decode e.toJson.fragment = .ok e := by
  obtain ⟨source, target, condition⟩ := e
  cases condition with
  | none => rfl
  | some b => rfl

/-- what is read from a text is read from what the text holds -/
theorem Fragment.decode_of_parse {α : Type} {decode : Fragment → Except ReadError α} {t : String} {a : α}
    (h : Fragment.parse decode t = .ok a) : decode (Fragment.ofText t.toList).1 = .ok a := by
  unfold Fragment.parse at h
  generalize Fragment.ofText t.toList = r at h ⊢
  obtain ⟨a', ha, h⟩ := bind_eq_ok.1 h
  split at h
  · rw [pure_eq_ok] at h
    rw [h, ha]
  · cases h

/-- the text that a value is written as holds that value and nothing else -/
theorem Json.ofText_toText (v : Json) : Fragment.ofText v.toText.toList = (v.fragment, true) := by
  rw [Fragment.ofText, v.tokens_toText, v.run_tokens]
  rfl

namespace Document

/-- **A normal document is read back.** -/
theorem decode_fragment {d : Document} (h : d.Normal) : decode d.toJson.fragment = .ok d := by
  obtain ⟨nodes, edges⟩ := d
  have hnodes : Parts.read {} "nodes" (Json.arr (nodes.map Node.toJson)).fragment = .ok ⟨some nodes, none⟩ := by
    have hread : decodeNodes (Json.arr (nodes.map Node.toJson)).fragment = .ok nodes :=
      Fragment.list_fragment fun n hn => Node.decode_fragment (h n hn)
    simp only [Parts.read, once, hread]
    rfl
  have hedges : Parts.read ⟨some nodes, none⟩ "edges" (Json.arr (edges.map Edge.toJson)).fragment =
      .ok ⟨some nodes, some edges⟩ := by
    have hread : Fragment.list Edge.decode (Json.arr (edges.map Edge.toJson)).fragment = .ok edges :=
      Fragment.list_fragment fun e _ => e.decode_fragment
    simp only [Parts.read, once, hread]
    rfl
  have hfragment : (Document.mk nodes edges).toJson.fragment =
      .obj [(some "nodes", (Json.arr (nodes.map Node.toJson)).fragment),
        (some "edges", (Json.arr (edges.map Edge.toJson)).fragment)] true := rfl
  simp only [hfragment, decode, members_cons, hnodes, hedges, ok_bind, members_nil]
  rfl

/-- a document can be read from its own text exactly when it is normal -/
theorem parse_toText_iff {d : Document} : parse d.toJson.toText = .ok d ↔ d.Normal := by
  have hparse : parse d.toJson.toText = decode d.toJson.fragment >>= pure := by
    rw [parse, Fragment.parse, Json.ofText_toText]
    rfl
  rw [hparse, bind_pure]
  exact ⟨normal_of_decode, decode_fragment⟩

/-- **The normal form of documents.** Whatever text a document was read from, the text that it is written as is read as
the same document, and so is written as it stands. -/
theorem parse_toText {t : String} {d : Document} (h : parse t = .ok d) :
    parse d.toJson.toText = .ok d ∧ (parse d.toJson.toText).map (fun d => d.toJson.toText) = .ok d.toJson.toText := by
  have hnormal : d.Normal := normal_of_decode (decode_of_parse h)
  have hread := parse_toText_iff.2 hnormal
  rw [hread]
  exact ⟨rfl, rfl⟩

/-- A document in unusual spelling: records as arrays, a second name, a kind as an object, members that repeat, fields
in another order and by another name, and a field that nobody reads. -/
def unusualText : String :=
  "[[[\"s\",\"start-node\"],[\"l\",\x7b\"loop\":null\x7d,\x7b\"b\":null,\"a\":true,\"b\":\"x\"\x7d,[\"c\"]]]," ++
    "[\x7b\"target\":\"l\",\"condition\":null,\"w\":[],\"source\":\"s\"\x7d,[\"l\",\"c\",false]]]"

/-- the document of `unusualText` -/
def unusualDocument : Document where
  nodes := [⟨"s", .start, [], []⟩, ⟨"l", .loop, [("a", .bool true), ("b", .str "x")], ["c"]⟩]
  edges := [⟨"s", "l", none⟩, ⟨"l", "c", some false⟩]

set_option maxRecDepth 2000 in
theorem parse_unusualText : parse unusualText = .ok unusualDocument := by cbv

theorem parse_toText_unusual :
    parse unusualText = .ok unusualDocument ∧ parse unusualDocument.toJson.toText = .ok unusualDocument :=
  ⟨parse_unusualText, (parse_toText parse_unusualText).1⟩

end Document

end Flowchart
