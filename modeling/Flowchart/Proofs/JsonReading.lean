/-
Reading back written JSON.

The machine that reads tokens puts a value together from the tokens of the value, whatever is open around it. So a
written text is read as the value that was written, with the members of every object sorted by key, unless it nests too
deep.

- `Json.run_tokens`: the machine reads the tokens of a value as that value.
- `Json.toJson?_fragment`: reading succeeds exactly up to the depth of the value.
- `Json.nesting_tokens`: the depth of a value is how many brackets are open at most in its text.
- `Json.sorted_of_isSorted`: a value with all members in order is read back unchanged.
- `Json.parse?_of_tokens`: all of this for a text.
-/
import Flowchart.Json.Fragment
import Flowchart.Proofs.JsonTokens

namespace Flowchart

namespace Machine

@[simp] theorem run_nil (m : Machine) : m.run [] = m := rfl

@[simp] theorem run_cons (m : Machine) (t : Token) (ts : List Token) : m.run (t :: ts) = (m.step t).run ts := rfl

@[simp] theorem run_append (m : Machine) (ts ts' : List Token) : m.run (ts ++ ts') = (m.run ts).run ts' :=
  List.foldl_append

/-- before the first item of an array, a token that does not close it is read as the item -/
theorem step_itemOrClose {t : Token} (ht : t ≠ .arrClose) (stack : List Frame) :
    (reading .itemOrClose stack).step t = (reading .value stack).step t := by
  rw [step, step]
  exact fun _ _ h _ => ht h

end Machine

namespace Json

mutual

/-- the fragment that a written value is read as -/
def fragment : Json → Fragment
  | .null => .null
  | .bool b => .bool b
  | .num n => .num n.numeral
  | .str s => .str (some s)
  | .arr items => .arr (fragmentItems items) true
  | .obj members => .obj (fragmentMembers members) true

/-- the fragments of items -/
def fragmentItems : List Json → List Fragment
  | [] => []
  | v :: items => fragment v :: fragmentItems items

/-- the fragments of members -/
def fragmentMembers : List (String × Json) → List (Option String × Fragment)
  | [] => []
  | (k, v) :: members => (some k, fragment v) :: fragmentMembers members

end

/-! ## The machine -/

open Machine

theorem tokens_eq_cons (v : Json) : ∃ t ts, v.tokens = t :: ts ∧ t ≠ .arrClose := by
  cases v with
  | arr items => cases items <;> exact ⟨.arrOpen, _, rfl, nofun⟩
  | obj members => cases members <;> exact ⟨.objOpen, _, rfl, nofun⟩
  | _ => exact ⟨_, [], rfl, nofun⟩

/-- the tokens of a value are read as that value, at the place of a value -/
def ReadsBack (v : Json) : Prop := ∀ stack, (reading .value stack).run v.tokens = put v.fragment stack

theorem ReadsBack.itemOrClose {v : Json} (h : v.ReadsBack) (stack : List Frame) :
    (reading .itemOrClose stack).run v.tokens = put v.fragment stack := by
  obtain ⟨t, ts, htokens, ht⟩ := v.tokens_eq_cons
  have hv := h stack
  rw [htokens, run_cons] at hv ⊢
  rw [step_itemOrClose ht, hv]

theorem run_tokensItems {items : List Json} (h : ∀ v ∈ items, v.ReadsBack) (read : List Fragment)
    (stack : List Frame) :
    (reading .commaOrClose (.arr read :: stack)).run (tokensItems items) =
      reading .commaOrClose (.arr ((fragmentItems items).reverse ++ read) :: stack) := by
  induction items generalizing read with
  | nil => rfl
  | cons v items ih =>
    obtain ⟨hv, hitems⟩ := List.forall_mem_cons.1 h
    rw [tokensItems, fragmentItems, run_append, run_cons, step, hv, put, ih hitems, List.reverse_cons,
      List.append_assoc, List.singleton_append]

theorem run_tokensMembers {members : List (String × Json)} (h : ∀ m ∈ members, m.2.ReadsBack)
    (read : List (Option String × Fragment)) (stack : List Frame) :
    (reading .commaOrClose (.obj read :: stack)).run (tokensMembers members) =
      reading .commaOrClose (.obj ((fragmentMembers members).reverse ++ read) :: stack) := by
  induction members generalizing read with
  | nil => rfl
  | cons m members ih =>
    obtain ⟨hm, hmembers⟩ := List.forall_mem_cons.1 h
    rw [tokensMembers, fragmentMembers, run_append, run_cons, run_cons, run_cons, step, step, readKey, step, hm, put,
      ih hmembers, List.reverse_cons, List.append_assoc, List.singleton_append]

/-- **The machine reads the tokens of a value as that value**, whatever is open around it. -/
theorem run_tokens (v : Json) : v.ReadsBack := by
  induction v using Json.induction with
  | null => exact fun _ => rfl
  | bool b => exact fun _ => rfl
  | num n => exact fun _ => rfl
  | str s => exact fun _ => rfl
  | arr items ih =>
    intro stack
    cases items with
    | nil => rfl
    | cons v items =>
      obtain ⟨hv, hitems⟩ := List.forall_mem_cons.1 ih
      simp only [tokens, run_append, run_cons, run_nil, step, readValue, hv.itemOrClose, put, run_tokensItems hitems,
        List.reverse_append, List.reverse_reverse]
      rfl
  | obj members ih =>
    intro stack
    cases members with
    | nil => rfl
    | cons m members =>
      obtain ⟨hm, hmembers⟩ := List.forall_mem_cons.1 ih
      simp only [tokens, run_append, run_cons, run_nil, step, readValue, readKey, hm _, put, run_tokensMembers hmembers,
        List.reverse_append, List.reverse_reverse]
      rfl

/-! ## The value of a fragment -/

mutual

/-- how many arrays and objects are nested in a value -/
def nesting : Json → Nat
  | .arr items => nestingItems items + 1
  | .obj members => nestingMembers members + 1
  | _ => 0

/-- the deepest nesting of the items -/
def nestingItems : List Json → Nat
  | [] => 0
  | v :: items => max (nesting v) (nestingItems items)

/-- the deepest nesting of the members -/
def nestingMembers : List (String × Json) → Nat
  | [] => 0
  | (_, v) :: members => max (nesting v) (nestingMembers members)

end

mutual

/-- the value with the members of every object in it sorted by key -/
def sorted : Json → Json
  | .arr items => .arr (sortedItems items)
  | .obj members => ofMembers (sortedMembers members)
  | v => v

/-- the items, each sorted -/
def sortedItems : List Json → List Json
  | [] => []
  | v :: items => sorted v :: sortedItems items

/-- the members in the order in which they stand, each value sorted -/
def sortedMembers : List (String × Json) → List (String × Json)
  | [] => []
  | (k, v) :: members => (k, sorted v) :: sortedMembers members

end

/-- a written value is read up to its nesting, with its members sorted -/
def ReadsWithin (v : Json) : Prop :=
  ∀ depth, v.fragment.toJson? depth = if v.nesting ≤ depth then some v.sorted else none

theorem toJsonItems?_fragmentItems {items : List Json} (h : ∀ v ∈ items, v.ReadsWithin) (depth : Nat) :
    Fragment.toJsonItems? depth (fragmentItems items) =
      if nestingItems items ≤ depth then some (sortedItems items) else none := by
  induction items with
  | nil => simp [fragmentItems, Fragment.toJsonItems?, nestingItems, sortedItems]
  | cons v items ih =>
    obtain ⟨hv, hitems⟩ := List.forall_mem_cons.1 h
    rw [fragmentItems, Fragment.toJsonItems?, hv, ih hitems, nestingItems, sortedItems]
    by_cases h1 : v.nesting ≤ depth <;> by_cases h2 : nestingItems items ≤ depth <;> simp [h1, h2]

theorem toJsonMembers?_fragmentMembers {members : List (String × Json)} (h : ∀ m ∈ members, m.2.ReadsWithin)
    (depth : Nat) :
    Fragment.toJsonMembers? depth (fragmentMembers members) =
      if nestingMembers members ≤ depth then some (sortedMembers members) else none := by
  induction members with
  | nil => simp [fragmentMembers, Fragment.toJsonMembers?, nestingMembers, sortedMembers]
  | cons m members ih =>
    obtain ⟨k, v⟩ := m
    obtain ⟨hv, hmembers⟩ := List.forall_mem_cons.1 h
    rw [fragmentMembers, Fragment.toJsonMembers?, hv, ih hmembers, nestingMembers, sortedMembers]
    by_cases h1 : v.nesting ≤ depth <;> by_cases h2 : nestingMembers members ≤ depth <;> simp [h1, h2]

/-- **Reading back.** A written value is read with its members sorted if it nests within the depth, and else not. -/
theorem toJson?_fragment (v : Json) : v.ReadsWithin := by
  induction v using Json.induction with
  | null => exact fun _ => by simp [fragment, Fragment.toJson?, nesting, sorted]
  | bool b => exact fun _ => by simp [fragment, Fragment.toJson?, nesting, sorted]
  | num n => exact fun _ => by simp [fragment, Fragment.toJson?, nesting, sorted, Number.ofNumeral?_numeral]
  | str s => exact fun _ => by simp [fragment, Fragment.toJson?, nesting, sorted]
  | arr items ih =>
    intro depth
    rw [fragment, Fragment.toJson?, toJsonItems?_fragmentItems ih, nesting, sorted]
    cases depth with
    | zero => simp
    | succ depth => by_cases h : nestingItems items ≤ depth <;> simp [h]
  | obj members ih =>
    intro depth
    rw [fragment, Fragment.toJson?, toJsonMembers?_fragmentMembers ih, nesting, sorted]
    cases depth with
    | zero => simp
    | succ depth => by_cases h : nestingMembers members ≤ depth <;> simp [h]

end Json

/-! ## Nesting of a text -/

namespace Token

/-- how many arrays and objects are open after a token -/
def openAfter (depth : Nat) : Token → Nat
  | .arrOpen => depth + 1
  | .objOpen => depth + 1
  | .arrClose => depth - 1
  | .objClose => depth - 1
  | _ => depth

/-- how many arrays and objects are open at most while the tokens are read, when `depth` are open before -/
def nesting (depth : Nat) : List Token → Nat
  | [] => depth
  | t :: ts => max depth (nesting (openAfter depth t) ts)

theorem le_nesting (depth : Nat) (ts : List Token) : depth ≤ nesting depth ts := by
  cases ts with
  | nil => exact Nat.le_refl _
  | cons t ts => exact Nat.le_max_left _ _

end Token

/-- how many arrays and objects are nested in a text -/
def nestingOfText (s : String) : Nat := Token.nesting 0 (Token.tokens s.toList)

namespace Json

/-- the tokens of a value nest as deep as the value -/
def NestsAsTokens (v : Json) : Prop :=
  ∀ depth ts, Token.nesting depth (v.tokens ++ ts) = max (depth + v.nesting) (Token.nesting depth ts)

theorem nesting_tokensItems {items : List Json} (h : ∀ v ∈ items, v.NestsAsTokens) (depth : Nat) (ts : List Token) :
    Token.nesting depth (tokensItems items ++ ts) = max (depth + nestingItems items) (Token.nesting depth ts) := by
  induction items with
  | nil => simp [tokensItems, nestingItems, Token.le_nesting]
  | cons v items ih =>
    obtain ⟨hv, hitems⟩ := List.forall_mem_cons.1 h
    simp only [tokensItems, nestingItems, List.append_assoc, List.cons_append, Token.nesting, Token.openAfter]
    rw [hv, ih hitems]
    omega

theorem nesting_tokensMembers {members : List (String × Json)} (h : ∀ m ∈ members, m.2.NestsAsTokens) (depth : Nat)
    (ts : List Token) :
    Token.nesting depth (tokensMembers members ++ ts) =
      max (depth + nestingMembers members) (Token.nesting depth ts) := by
  induction members with
  | nil => simp [tokensMembers, nestingMembers, Token.le_nesting]
  | cons m members ih =>
    obtain ⟨k, v⟩ := m
    obtain ⟨hm, hmembers⟩ := List.forall_mem_cons.1 h
    have hv : v.NestsAsTokens := hm
    simp only [tokensMembers, nestingMembers, List.append_assoc, List.cons_append, Token.nesting, Token.openAfter]
    rw [hv, ih hmembers]
    omega

/-- **The nesting of a value is that of its tokens**, whatever is open around them. -/
theorem nesting_tokens (v : Json) : v.NestsAsTokens := by
  induction v using Json.induction with
  | arr items ih =>
    intro depth ts
    cases items with
    | nil =>
      simp only [tokens, nesting, nestingItems, List.cons_append, List.nil_append, Token.nesting, Token.openAfter,
        Nat.add_sub_cancel]
      omega
    | cons v items =>
      obtain ⟨hv, hitems⟩ := List.forall_mem_cons.1 ih
      simp only [tokens, nesting, nestingItems, List.append_assoc, List.cons_append, List.nil_append, Token.nesting,
        Token.openAfter]
      rw [hv, nesting_tokensItems hitems, Token.nesting, Token.openAfter, Nat.add_sub_cancel]
      omega
  | obj members ih =>
    intro depth ts
    cases members with
    | nil =>
      simp only [tokens, nesting, nestingMembers, List.cons_append, List.nil_append, Token.nesting, Token.openAfter,
        Nat.add_sub_cancel]
      omega
    | cons m members =>
      obtain ⟨k, v⟩ := m
      obtain ⟨hm, hmembers⟩ := List.forall_mem_cons.1 ih
      have hv : v.NestsAsTokens := hm
      simp only [tokens, nesting, nestingMembers, List.append_assoc, List.cons_append, List.nil_append, Token.nesting,
        Token.openAfter]
      rw [hv, nesting_tokensMembers hmembers, Token.nesting, Token.openAfter, Nat.add_sub_cancel]
      omega
  | _ =>
    intro depth ts
    simp [tokens, nesting, Token.nesting, Token.openAfter]

/-! ## Members in order -/

mutual

/-- in every object of the value the keys rise from member to member -/
def isSorted : Json → Bool
  | .arr items => isSortedItems items
  | .obj members => decide ((members.map (·.1)).Pairwise (· < ·)) && isSortedMembers members
  | _ => true

/-- all items are sorted -/
def isSortedItems : List Json → Bool
  | [] => true
  | v :: items => isSorted v && isSortedItems items

/-- the values of all members are sorted -/
def isSortedMembers : List (String × Json) → Bool
  | [] => true
  | (_, v) :: members => isSorted v && isSortedMembers members

end

theorem compare_eq_gt {a b : String} (h : b < a) : compare a b = .gt :=
  Std.OrientedCmp.gt_iff_lt.2 (compareOfLessAndEq_eq_lt.2 h)

/-- a key after all others is put last -/
theorem insertMember_of_lt {key : String} {value : Json} {members : List (String × Json)}
    (h : ∀ m ∈ members, m.1 < key) : insertMember key value members = members ++ [(key, value)] := by
  induction members with
  | nil => rfl
  | cons m members ih =>
    obtain ⟨hm, hmembers⟩ := List.forall_mem_cons.1 h
    rw [insertMember, compare_eq_gt hm, ih hmembers]
    rfl

theorem foldl_insertMember {before members : List (String × Json)}
    (h : ((before ++ members).map (·.1)).Pairwise (· < ·)) :
    members.foldl (fun sorted m => insertMember m.1 m.2 sorted) before = before ++ members := by
  induction members generalizing before with
  | nil => simp
  | cons m members ih =>
    have hlast : ∀ x ∈ before, x.1 < m.1 := by
      intro x hx
      rw [List.map_append] at h
      exact (List.pairwise_append.1 h).2.2 x.1 (List.mem_map_of_mem hx) m.1 (by simp)
    rw [List.foldl_cons, insertMember_of_lt hlast, ih (by simpa using h), List.append_assoc, List.singleton_append]

theorem sortMembers_of_pairwise {members : List (String × Json)} (h : (members.map (·.1)).Pairwise (· < ·)) :
    sortMembers members = members := by
  rw [← List.nil_append members] at h
  exact foldl_insertMember h

/-- **A value with all members in order is sorted as it stands.** -/
theorem sorted_of_isSorted (v : Json) (h : v.isSorted) : v.sorted = v := by
  induction v using Json.induction with
  | arr items ih =>
    rw [isSorted] at h
    rw [sorted]
    congr 1
    induction items with
    | nil => rfl
    | cons v items ih' =>
      obtain ⟨hv, hitems⟩ := List.forall_mem_cons.1 ih
      rw [isSortedItems, Bool.and_eq_true] at h
      rw [sortedItems, hv h.1, ih' hitems h.2]
  | obj members ih =>
    rw [isSorted, Bool.and_eq_true, decide_eq_true_eq] at h
    have hmembers : sortedMembers members = members := by
      replace h := h.2
      induction members with
      | nil => rfl
      | cons m members ih' =>
        obtain ⟨k, v⟩ := m
        obtain ⟨hm, hmembers⟩ := List.forall_mem_cons.1 ih
        have hv : v.isSorted → v.sorted = v := hm
        rw [isSortedMembers, Bool.and_eq_true] at h
        rw [sortedMembers, hv h.1, ih' hmembers h.2]
    rw [sorted, hmembers, ofMembers, sortMembers_of_pairwise h.1]
  | _ => rfl

/-! ## Texts -/

theorem nestingOfText_eq {s : String} {v : Json} (h : Token.tokens s.toList = v.tokens) :
    nestingOfText s = v.nesting := by
  have := v.nesting_tokens 0 []
  rw [List.append_nil] at this
  rw [nestingOfText, h, this, Token.nesting, Nat.zero_add, Nat.max_zero]

/-- **A text with the tokens of a value is read as that value**, its members sorted, if it nests at most as deep as
texts may. -/
theorem parse?_of_tokens {s : String} {v : Json} (h : Token.tokens s.toList = v.tokens) :
    Json.parse? s = if nestingOfText s ≤ depthLimit then some v.sorted else none := by
  have htext : Fragment.ofText s.toList = (v.fragment, true) := by
    rw [Fragment.ofText, h, v.run_tokens]
    rfl
  rw [Json.parse?, htext, nestingOfText_eq h]
  exact v.toJson?_fragment depthLimit

theorem tokens_of_spells {s : List Char} {v : Json} (h : Token.Spells s v.tokens) :
    Token.tokens (String.ofList s).toList = v.tokens := by
  have hnil : Token.tokens [] = [] := Token.tokens_eq_nil rfl
  have := h [] Numeral.ends_nil
  rw [hnil, List.append_nil, List.append_nil] at this
  rw [String.toList_ofList, this]

theorem tokens_toText (v : Json) : Token.tokens v.toText.toList = v.tokens := tokens_of_spells v.spells_compact

theorem tokens_toPrettyText (v : Json) : Token.tokens v.toPrettyText.toList = v.tokens :=
  tokens_of_spells (v.spells_pretty 0)

end Json

end Flowchart
