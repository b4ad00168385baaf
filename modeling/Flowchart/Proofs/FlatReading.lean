/-
Formulas read flat.

A formula is read by cutting it in two, trimming both sides and reading them the same way. It can also be read at once:
cut it at every `+`, cut each piece at every `===`, and trim what is left. Here both readings are the same, so what a
formula reads as can be seen without any recursion.

- `Formula.atoms`: the text cut at every `+` and every `===`, and trimmed.
- `Formula.reference_eq_atom`: which references are well formed, and what they stand for.
- `Formula.parse_iff`: a formula reads as the chain of its atoms, if all of them can be read.
- `Formula.parse_flat`: the flat reading, and how many operations there are.
-/
import Flowchart.Proofs.Cutting
import Flowchart.Proofs.Shape

namespace Flowchart

namespace Formula

variable {operator : Operator} {s left right : List Char}

/-! ## Atoms -/

/-- the text has an operator -/
def HasOperator (s : List Char) : Prop := ∃ operator : Operator, operator.mark <:+: s

/-- the text cut at every `===`, and trimmed -/
def comparands (s : List Char) : List (List Char) := (pieces .strictEqual s).map Text.trim

/-- The atoms of a formula: the text cut at every `+`, and each piece cut at every `===` and trimmed. -/
def atoms (s : List Char) : List (List (List Char)) := (pieces .add s).map comparands

theorem padInvariant_comparands : PadInvariant comparands := padInvariant_trim.map_pieces .strictEqual

theorem padInvariant_atoms : PadInvariant atoms := padInvariant_comparands.map_pieces .add

/-- a text without `+` is one piece -/
theorem atoms_of_not_add (h : Text.cut? Operator.add.mark s = none) : atoms s = [comparands s] := by
  rw [atoms, pieces_of_none h, List.map_singleton]

theorem atoms_of_add (h : Text.cut? Operator.add.mark s = some (left, right)) :
    atoms s = comparands left :: atoms right := by
  rw [atoms, pieces_of_some h, List.map_cons, atoms]

theorem comparands_of_not_equal (h : Text.cut? Operator.strictEqual.mark s = none) : comparands s = [Text.trim s] := by
  rw [comparands, pieces_of_none h, List.map_singleton]

theorem comparands_of_equal (h : Text.cut? Operator.strictEqual.mark s = some (left, right)) :
    comparands s = Text.trim left :: comparands right := by
  rw [comparands, pieces_of_some h, List.map_cons, comparands]

/-! ## References -/

/-- The text is well formed as a reference, after its sigil: it is not empty, has no blank and at most one separator,
and a separator stands between two names. -/
structure IsReference (s : List Char) : Prop where
  ne_nil : s ≠ []
  not_blank : ∀ c ∈ s, Text.isBlank c = false
  separators : s.count '/' ≤ 1
  sides : ∀ object property, s = object ++ '/' :: property → object ≠ [] ∧ property ≠ []

/-- what a reference stands for, after its sigil: a variable, or with a separator a property of one -/
def referent (s : List Char) : Expression :=
  match Text.cut? ['/'] s with
  | none => .identifier (String.ofList s)
  | some (object, property) => .member (.identifier (String.ofList object)) (String.ofList property)

/-- what an atom stands for: after a sigil what it refers to, and otherwise a constant -/
def operand : List Char → Expression
  | '$' :: name => referent name
  | s => constant s

theorem operand_constant (h : s.head? ≠ some '$') : operand s = constant s := by
  unfold operand
  split
  · exact absurd rfl h
  · rfl

/-- a text without separators that can be a name -/
theorem isReference_name (hne : s ≠ []) (hblank : ∀ c ∈ s, Text.isBlank c = false) (hslash : '/' ∉ s) :
    IsReference s where
  ne_nil := hne
  not_blank := hblank
  separators := by simp [List.count_eq_zero_of_not_mem hslash]
  sides := by
    rintro object property rfl
    simp at hslash

/-- two names with a separator between them -/
theorem isReference_property {object property : List Char}
    (hblank : ∀ c ∈ object ++ '/' :: property, Text.isBlank c = false) (hobject : object ≠ [])
    (hproperty : property ≠ []) (hleft : '/' ∉ object) (hright : '/' ∉ property) :
    IsReference (object ++ '/' :: property) where
  ne_nil := by simp
  not_blank := hblank
  separators := by
    rw [List.count_append, List.count_cons_self, List.count_eq_zero_of_not_mem hleft,
      List.count_eq_zero_of_not_mem hright]
  sides := by
    -- the other side of another separator would hold this one
    intro object' property' heq
    constructor
    · rintro rfl
      obtain ⟨c, rest, rfl⟩ := List.exists_cons_of_ne_nil hobject
      cases heq
      simp at hleft
    · rintro rfl
      have hlast := congrArg List.getLast? heq
      rw [List.getLast?_append_of_ne_nil _ (List.cons_ne_nil _ _),
        List.getLast?_append_of_ne_nil _ (List.cons_ne_nil _ _), List.getLast?_cons_of_ne_nil hproperty] at hlast
      exact hright (List.mem_of_getLast? hlast)

/-- **Which references can be read, and what they stand for.** -/
theorem reference_eq_atom {e : Expression} : reference s = .atom e ↔ IsReference s ∧ e = referent s := by
  unfold reference referent
  split
  · rename_i hempty
    constructor
    · intro h
      cases h
    · rintro ⟨h, -⟩
      exact absurd (List.isEmpty_iff.1 hempty) h.ne_nil
  rename_i hempty
  split
  · rename_i hblank
    constructor
    · intro h
      cases h
    · rintro ⟨h, -⟩
      obtain ⟨c, hc, hblank⟩ := List.any_eq_true.1 hblank
      rw [h.not_blank c hc] at hblank
      cases hblank
  rename_i hblank
  have hne : s ≠ [] := by simpa using hempty
  have hplain : ∀ c ∈ s, Text.isBlank c = false := by simpa using hblank
  cases hcut : Text.cut? ['/'] s with
  | none =>
    rw [Text.cut?_eq_none (by simp), List.singleton_infix_iff] at hcut
    rw [Reading.atom.injEq]
    exact ⟨fun h => ⟨isReference_name hne hplain hcut, h.symm⟩, fun h => h.2.symm⟩
  | some sides =>
    obtain ⟨object, property⟩ := sides
    have hs : s = object ++ '/' :: property := Text.cut?_eq_some hcut
    have hleft : '/' ∉ object := by
      rw [← List.singleton_infix_iff]
      exact Text.cut?_left (by simp) hcut
    show (if '/' ∈ property then _ else _) = _ ↔ _
    split
    · rename_i hright
      constructor
      · intro h
        cases h
      · rintro ⟨h, -⟩
        have hcount := h.separators
        have hpos := List.count_pos_iff.2 hright
        rw [hs, List.count_append, List.count_cons_self] at hcount
        omega
    rename_i hright
    split
    · rename_i hside
      constructor
      · intro h
        cases h
      · rintro ⟨h, -⟩
        obtain ⟨hobject, hproperty⟩ := h.sides object property hs
        simp [hobject, hproperty] at hside
    · rename_i hside
      rw [List.isEmpty_iff, List.isEmpty_iff, not_or] at hside
      rw [Reading.atom.injEq]
      subst hs
      exact ⟨fun h => ⟨isReference_property hplain hside.1 hside.2 hleft hright, h.symm⟩, fun h => h.2.symm⟩

/-! ## One look at a text -/

theorem hasOperator_of_cut? (operator : Operator) (h : Text.cut? operator.mark s = some (left, right)) :
    HasOperator s :=
  ⟨operator, left, right, by rw [Text.cut?_eq_some h, List.append_assoc]⟩

theorem not_hasOperator : ¬HasOperator s ↔ ∀ operator : Operator, Text.cut? operator.mark s = none := by
  simp only [HasOperator, not_exists, Text.cut?_eq_none (Operator.mark_ne_nil _)]

/-- the cut that one look at a text makes: at the first `+`, and without one at the first `===` -/
inductive Cuts : Operator → List Char → List Char → List Char → Prop
  | add {s left right : List Char} (h : Text.cut? Operator.add.mark s = some (left, right)) : Cuts .add s left right
  | strictEqual {s left right : List Char} (hadd : Text.cut? Operator.add.mark s = none)
    (h : Text.cut? Operator.strictEqual.mark s = some (left, right)) : Cuts .strictEqual s left right

theorem Cuts.cut? (h : Cuts operator s left right) : Text.cut? operator.mark s = some (left, right) := by
  cases h with
  | add h => exact h
  | strictEqual _ h => exact h

theorem exists_cuts (h : HasOperator s) : ∃ operator left right, Cuts operator s left right := by
  cases hadd : Text.cut? Operator.add.mark s with
  | some sides => exact ⟨.add, sides.1, sides.2, .add hadd⟩
  | none =>
    cases hequal : Text.cut? Operator.strictEqual.mark s with
    | some sides => exact ⟨.strictEqual, sides.1, sides.2, .strictEqual hadd hequal⟩
    | none =>
      refine absurd h (not_hasOperator.2 fun operator => ?_)
      cases operator with
      | add => exact hadd
      | strictEqual => exact hequal

theorem Cuts.read_eq (h : Cuts operator s left right) : read s = operation operator left right := by
  unfold read
  cases h with
  | add h =>
    have hadd : Text.cut? ['+'] s = some (left, right) := h
    rw [hadd]
  | strictEqual hnone h =>
    have hadd : Text.cut? ['+'] s = none := hnone
    have hequal : Text.cut? ['=', '=', '='] s = some (left, right) := h
    rw [hadd, hequal]

theorem read_sigil (h : ¬HasOperator ('$' :: s)) : read ('$' :: s) = reference s := by
  have hadd : Text.cut? ['+'] ('$' :: s) = none := not_hasOperator.1 h .add
  have hequal : Text.cut? ['=', '=', '='] ('$' :: s) = none := not_hasOperator.1 h .strictEqual
  unfold read
  rw [hadd, hequal]
  rfl

theorem read_constant (h : ¬HasOperator s) (hs : s.head? ≠ some '$') : read s = .atom (constant s) := by
  have hadd : Text.cut? ['+'] s = none := not_hasOperator.1 h .add
  have hequal : Text.cut? ['=', '=', '='] s = none := not_hasOperator.1 h .strictEqual
  unfold read
  rw [hadd, hequal]
  show (match s with | '$' :: name => reference name | s => .atom (constant s)) = _
  split
  · exact absurd rfl hs
  · rfl

/-! ## The flat reading -/

/-- the atom can be read: it is not empty, and after a sigil it is a well-formed reference -/
structure IsReadable (a : List Char) : Prop where
  ne_nil : a ≠ []
  reference : ∀ name, a = '$' :: name → IsReference name

/-- all atoms of the formula can be read -/
def AllReadable (s : List Char) : Prop := ∀ piece ∈ atoms s, ∀ a ∈ piece, IsReadable a

/-- operands with an operator between them, grouped to the right; there is at least one -/
def joined (operator : Operator) : List Expression → Expression
  | [] => default
  | [e] => e
  | e :: rest => .binary operator e (joined operator rest)

/-- the sum of its pieces, each of which is the comparison of its atoms -/
def flat (s : List Char) : Expression :=
  joined .add ((atoms s).map fun piece => joined .strictEqual (piece.map operand))

@[simp] theorem joined_singleton (e : Expression) : joined operator [e] = e := rfl

theorem joined_cons {e : Expression} {rest : List Expression} (h : rest ≠ []) :
    joined operator (e :: rest) = .binary operator e (joined operator rest) := by
  obtain ⟨e', rest', rfl⟩ := List.exists_cons_of_ne_nil h
  rfl

theorem atoms_ne_nil (s : List Char) : atoms s ≠ [] := by
  simp [atoms, pieces_ne_nil]

theorem comparands_ne_nil (s : List Char) : comparands s ≠ [] := by
  simp [comparands, pieces_ne_nil]

theorem atoms_of_not_hasOperator (h : ¬HasOperator s) : atoms s = [[Text.trim s]] := by
  rw [not_hasOperator] at h
  rw [atoms_of_not_add (h .add), comparands_of_not_equal (h .strictEqual)]

/-- blanks can not be read -/
theorem AllReadable.trim_ne_nil (h : AllReadable s) : Text.trim s ≠ [] := by
  intro hblank
  have hatoms := padInvariant_atoms.trim s
  have hnil : ¬HasOperator [] := not_hasOperator.2 fun _ => rfl
  rw [hblank, atoms_of_not_hasOperator hnil] at hatoms
  have hempty : [] ∈ [Text.trim []] := List.mem_singleton_self _
  exact (h [Text.trim []] (by simp [← hatoms]) [] hempty).ne_nil rfl

/-- the mark of an operator does not stand in the left side of its cut -/
theorem cut?_left_eq_none (h : Text.cut? operator.mark s = some (left, right)) :
    Text.cut? operator.mark left = none :=
  (Text.cut?_eq_none operator.mark_ne_nil).2 (Text.cut?_left operator.mark_ne_nil h)

/-- neither side of a cut has an operator that the text has not -/
theorem cut?_sides_eq_none {operator' : Operator} (h : Text.cut? operator.mark s = some (left, right))
    (hnone : Text.cut? operator'.mark s = none) :
    Text.cut? operator'.mark left = none ∧ Text.cut? operator'.mark right = none := by
  simp only [Text.cut?_eq_none operator'.mark_ne_nil] at hnone ⊢
  have hs := Text.cut?_eq_some h
  constructor
  · intro hleft
    exact hnone (hleft.trans ⟨[], operator.mark ++ right, by rw [hs, List.nil_append]⟩)
  · intro hright
    exact hnone (hright.trans ⟨left ++ operator.mark, [], by rw [hs, List.append_nil, List.append_assoc]⟩)

/-- the atoms of a text and of the two sides of its cut -/
theorem Cuts.allReadable (h : Cuts operator s left right) :
    AllReadable s ↔ AllReadable left ∧ AllReadable right := by
  unfold AllReadable
  cases h with
  | add h =>
    rw [atoms_of_add h, atoms_of_not_add (cut?_left_eq_none h), List.forall_mem_cons, List.forall_mem_singleton]
  | strictEqual hadd h =>
    obtain ⟨hleft, hright⟩ := cut?_sides_eq_none h hadd
    rw [atoms_of_not_add hadd, atoms_of_not_add hleft, atoms_of_not_add hright, comparands_of_equal h,
      comparands_of_not_equal (cut?_left_eq_none h)]
    simp only [List.forall_mem_singleton, List.forall_mem_cons]

theorem Cuts.flat_eq (h : Cuts operator s left right) : flat s = .binary operator (flat left) (flat right) := by
  unfold flat
  cases h with
  | add h =>
    rw [atoms_of_add h, atoms_of_not_add (cut?_left_eq_none h), List.map_cons, List.map_singleton,
      joined_cons (by simp [atoms_ne_nil])]
    rfl
  | strictEqual hadd h =>
    obtain ⟨hleft, hright⟩ := cut?_sides_eq_none h hadd
    rw [atoms_of_not_add hadd, atoms_of_not_add hleft, atoms_of_not_add hright, comparands_of_equal h,
      comparands_of_not_equal (cut?_left_eq_none h)]
    simp only [List.map_cons, List.map_nil, joined_singleton]
    refine joined_cons ?_
    simp [comparands_ne_nil]

/-- an operation is read when both sides are there and are read -/
theorem Cuts.parse_eq_ok (h : Cuts operator s left right) {e : Expression} :
    parse s = .ok e ↔ (Text.trim left ≠ [] ∧ Text.trim right ≠ []) ∧
      ∃ l r, parse (Text.trim left) = .ok l ∧ parse (Text.trim right) = .ok r ∧ e = .binary operator l r := by
  rw [Formula.parse_eq_ok, h.read_eq]
  unfold operation
  simp only [List.isEmpty_iff]
  split
  · rename_i hempty
    simp only [reduceCtorEq, false_and, exists_false, or_self, false_iff]
    tauto
  · rename_i hsides
    simp only [reduceCtorEq, Reading.operation.injEq, false_or]
    constructor
    · rintro ⟨_, _, _, l, r, ⟨rfl, rfl, rfl⟩, hl, hr, he⟩
      exact ⟨not_or.1 hsides, l, r, hl, hr, he⟩
    · rintro ⟨-, l, r, hl, hr, he⟩
      exact ⟨operator, _, _, l, r, ⟨rfl, rfl, rfl⟩, hl, hr, he⟩

/-- a text without operators is read as one atom -/
theorem parse_of_not_hasOperator (h : ¬HasOperator s) {e : Expression} : parse s = .ok e ↔ read s = .atom e := by
  rw [Formula.parse_eq_ok, or_iff_left]
  rintro ⟨operator, l, r, _, _, hread, _⟩
  obtain ⟨left, right, -, -, ⟨rfl, hcut⟩ | ⟨rfl, -, hcut⟩⟩ := read_operation hread
  · exact h (hasOperator_of_cut? .add hcut)
  · exact h (hasOperator_of_cut? .strictEqual hcut)

/-- an atom on its own -/
theorem parse_atom (h : ¬HasOperator s) {e : Expression} :
    parse s = .ok e ↔ (∀ name, s = '$' :: name → IsReference name) ∧ e = operand s := by
  rw [parse_of_not_hasOperator h]
  by_cases hs : s.head? = some '$'
  · obtain ⟨name, rfl⟩ : ∃ name, s = '$' :: name := by
      cases s with
      | nil => cases hs
      | cons c name =>
        cases hs
        exact ⟨name, rfl⟩
    rw [read_sigil h, reference_eq_atom]
    simp only [List.cons.injEq, true_and, forall_eq']
    rfl
  · rw [read_constant h hs, operand_constant hs, Reading.atom.injEq]
    constructor
    · rintro rfl
      refine ⟨?_, rfl⟩
      rintro name rfl
      exact absurd rfl hs
    · rintro ⟨-, rfl⟩
      rfl

/-- **A formula reads as the chain of its atoms, if all of them can be read.** The formula has an operator, or it is
trimmed and not empty. -/
theorem parse_iff {s : List Char} (hs : HasOperator s ∨ Text.trim s = s ∧ s ≠ []) {e : Expression} :
    parse s = .ok e ↔ AllReadable s ∧ e = flat s := by
  by_cases h : HasOperator s
  · obtain ⟨operator, left, right, hcut⟩ := exists_cuts h
    have hleft := Text.length_cut?_left hcut.cut? operator.mark_ne_nil
    have hright := Text.length_cut?_right hcut.cut? operator.mark_ne_nil
    -- both sides are read after trimming, which their atoms do not show
    have hside : ∀ t : List Char, t.length < s.length → Text.trim t ≠ [] → ∀ e,
        parse (Text.trim t) = .ok e ↔ AllReadable t ∧ e = flat t := by
      intro t ht hne e
      have hlength := Text.length_trim_le t
      have hread := parse_iff (s := Text.trim t) (Or.inr ⟨Text.trim_trim t, hne⟩) (e := e)
      unfold AllReadable flat at hread ⊢
      rwa [padInvariant_atoms.trim] at hread
    rw [hcut.parse_eq_ok, hcut.allReadable, hcut.flat_eq]
    constructor
    · rintro ⟨⟨hl, hr⟩, l, r, hparsel, hparser, rfl⟩
      obtain ⟨hreadl, rfl⟩ := (hside left hleft hl l).1 hparsel
      obtain ⟨hreadr, rfl⟩ := (hside right hright hr r).1 hparser
      exact ⟨⟨hreadl, hreadr⟩, rfl⟩
    · rintro ⟨⟨hreadl, hreadr⟩, rfl⟩
      have hl := hreadl.trim_ne_nil
      have hr := hreadr.trim_ne_nil
      exact ⟨⟨hl, hr⟩, flat left, flat right, (hside left hleft hl _).2 ⟨hreadl, rfl⟩,
        (hside right hright hr _).2 ⟨hreadr, rfl⟩, rfl⟩
  · obtain ⟨htrim, hne⟩ := hs.resolve_left h
    rw [parse_atom h, AllReadable, flat, atoms_of_not_hasOperator h, htrim]
    simp only [List.forall_mem_singleton]
    constructor
    · rintro ⟨href, rfl⟩
      exact ⟨⟨hne, href⟩, rfl⟩
    · rintro ⟨hread, rfl⟩
      exact ⟨hread.reference, rfl⟩
termination_by s.length
decreasing_by omega

/-! ## How many operations there are -/

theorem cuts_of_read {l r : List Char} (h : read s = .operation operator l r) :
    ∃ left right, Cuts operator s left right ∧ l = Text.trim left ∧ r = Text.trim right := by
  obtain ⟨left, right, hl, hr, ⟨rfl, hadd⟩ | ⟨rfl, hadd, hequal⟩⟩ := read_operation h
  · exact ⟨left, right, .add hadd, hl, hr⟩
  · exact ⟨left, right, .strictEqual hadd hequal, hl, hr⟩

theorem not_hasOperator_of_read {e : Expression} (h : read s = .atom e) : ¬HasOperator s := by
  intro hs
  obtain ⟨operator, left, right, hcut⟩ := exists_cuts hs
  rw [hcut.read_eq, operation] at h
  split at h <;> cases h

end Formula

namespace Expression

/-- the expression is an operation with this operator -/
def isOperation (operator : Operator) : Expression → Bool
  | .binary operator' _ _ => operator' = operator
  | _ => false

/-- the number of operations with this operator in an expression -/
def operations (operator : Operator) (e : Expression) : Nat := (e.parts true).countP (isOperation operator)

theorem operations_binary (operator operator' : Operator) (left right : Expression) :
    (binary operator' left right).operations operator =
      left.operations operator + right.operations operator + if operator' = operator then 1 else 0 := by
  rw [operations, parts, List.countP_cons, List.countP_append, isOperation, operations, operations]
  simp

end Expression

namespace Formula

variable {e : Expression}

theorem IsAtom.operations_eq (h : IsAtom e) (operator : Operator) : e.operations operator = 0 := by
  cases h <;> rfl

theorem IsComparison.operations_add (h : IsComparison e) : e.operations .add = 0 := by
  induction h with
  | atom h => exact h.operations_eq .add
  | equal hl _ ih => simp [Expression.operations_binary, hl.operations_eq, ih]

/-- no `+` stands under a `===` -/
def NoAddUnderEqual (e : Expression) : Prop :=
  ∀ left right, Expression.binary .strictEqual left right ∈ e.parts true →
    left.operations .add = 0 ∧ right.operations .add = 0

theorem IsAtom.noAddUnderEqual (h : IsAtom e) : NoAddUnderEqual e := by
  intro left right hmem
  cases h <;> simp [Expression.parts] at hmem

theorem IsComparison.noAddUnderEqual (h : IsComparison e) : NoAddUnderEqual e := by
  induction h with
  | atom h => exact h.noAddUnderEqual
  | equal hl hr ih =>
    intro left right hmem
    rw [Expression.parts, List.mem_cons, List.mem_append] at hmem
    rcases hmem with heq | hmem | hmem
    · cases heq
      exact ⟨hl.operations_eq .add, hr.operations_add⟩
    · exact hl.noAddUnderEqual left right hmem
    · exact ih left right hmem

theorem IsSum.noAddUnderEqual (h : IsSum e) : NoAddUnderEqual e := by
  induction h with
  | comparison h => exact h.noAddUnderEqual
  | add hl hr ih =>
    intro left right hmem
    rw [Expression.parts, List.mem_cons, List.mem_append] at hmem
    rcases hmem with heq | hmem | hmem
    · cases heq
    · exact hl.noAddUnderEqual left right hmem
    · exact ih left right hmem

/-- **A formula has as many operations of a kind as cuts.** -/
theorem operations_of_parse (h : parse s = .ok e) :
    e.operations .add = s.count '+' ∧ e.operations .strictEqual + 1 = (pieces .strictEqual s).length := by
  refine parse_induction (motive := fun s e =>
    e.operations .add = s.count '+' ∧ e.operations .strictEqual + 1 = (pieces .strictEqual s).length) ?_ ?_ h
  · intro s e hread
    have hnone := not_hasOperator.1 (not_hasOperator_of_read hread)
    have hatom := isAtom_of_read hread
    have hplus : '+' ∉ s := by
      rw [← List.singleton_infix_iff]
      exact (Text.cut?_eq_none (by simp)).1 (hnone .add)
    rw [hatom.operations_eq, hatom.operations_eq, List.count_eq_zero_of_not_mem hplus,
      pieces_of_none (hnone .strictEqual)]
    exact ⟨rfl, rfl⟩
  · intro s op l r el er hread ihl ihr
    obtain ⟨left, right, hcut, rfl, rfl⟩ := cuts_of_read hread
    have hs := Text.cut?_eq_some hcut.cut?
    rw [count_trim rfl, length_pieces_trim] at ihl ihr
    obtain ⟨hladd, hlequal⟩ := ihl
    obtain ⟨hradd, hrequal⟩ := ihr
    have hcount : s.count '+' = left.count '+' + ((if op = .add then 1 else 0) + right.count '+') := by
      rw [hs, List.count_append, List.count_append, op.count_mark]
    rw [Expression.operations_binary, Expression.operations_binary, hcount]
    cases hcut with
    | add hcut =>
      have hplus : '+' ∉ Operator.strictEqual.mark := by decide
      have hpieces := length_pieces_append_cons hplus (x := left) (y := right)
      have hwhole : s = left ++ '+' :: right := hs
      rw [hwhole, if_pos rfl, if_neg (by decide)]
      omega
    | strictEqual hadd hcut =>
      rw [pieces_of_none (cut?_left_eq_none hcut), List.length_singleton] at hlequal
      rw [pieces_of_some hcut, List.length_cons, if_pos rfl, if_neg (by decide)]
      omega

/-! ## Refusals -/

/-- a text is refused when one look refuses it, or one of its sides is refused -/
theorem parse_eq_error {u : Unparsable} :
    parse s = .error u ↔ (∃ reason, read s = .refused reason ∧ u = ⟨String.ofList s, reason⟩) ∨
      ∃ op l r, read s = .operation op l r ∧ (parse l = .error u ∨ ∃ el, parse l = .ok el ∧ parse r = .error u) := by
  rw [parse]
  split
  · rename_i hread
    simp [hread]
  · rename_i reason hread
    simp only [hread, Except.error.injEq, Reading.refused.injEq, exists_eq_left', reduceCtorEq, false_and, exists_false,
      or_false]
    exact eq_comm
  · rename_i op l r hread
    simp only [hread, bind_eq_error, reduceCtorEq, false_and, exists_false, false_or, Reading.operation.injEq]
    constructor
    · rintro (hl | ⟨el, hl, hr | ⟨er, -, hpure⟩⟩)
      · exact ⟨op, l, r, ⟨rfl, rfl, rfl⟩, Or.inl hl⟩
      · exact ⟨op, l, r, ⟨rfl, rfl, rfl⟩, Or.inr ⟨el, hl, hr⟩⟩
      · cases hpure
    · rintro ⟨_, _, _, ⟨rfl, rfl, rfl⟩, hl | ⟨el, hl, hr⟩⟩
      · exact Or.inl hl
      · exact Or.inr ⟨el, hl, Or.inl hr⟩

/-- **What is reported as unreadable stands in the formula.** -/
theorem input_infix_of_parse {s : List Char} {u : Unparsable} (h : parse s = .error u) : u.input.toList <:+: s := by
  rcases parse_eq_error.1 h with ⟨reason, -, rfl⟩ | ⟨op, l, r, hread, hside⟩
  · rw [String.toList_ofList]
  · have hlength := length_read hread
    obtain ⟨left, right, hcut, rfl, rfl⟩ := cuts_of_read hread
    have hs := Text.cut?_eq_some hcut.cut?
    rcases hside with hl | ⟨el, -, hr⟩
    · have hleft : left <:+: s := ⟨[], op.mark ++ right, by rw [hs, List.nil_append]⟩
      exact (input_infix_of_parse hl).trans ((Text.trim_infix left).trans hleft)
    · have hright : right <:+: s := ⟨left ++ op.mark, [], by rw [hs, List.append_nil, List.append_assoc]⟩
      exact (input_infix_of_parse hr).trans ((Text.trim_infix right).trans hright)
termination_by s.length
decreasing_by all_goals omega

/-! ## The theorem -/

/-- the outcome of reading a text that one look settles -/
def Reading.Settles (s : List Char) (outcome : Except Unparsable Expression) : Reading → Prop
  | .atom e => outcome = .ok e
  | .refused reason => outcome = .error ⟨String.ofList s, reason⟩
  | .operation _ _ _ => False

theorem settles_of_reference (h : ¬HasOperator ('$' :: s)) :
    (reference s).Settles ('$' :: s) (parse ('$' :: s)) := by
  have hread := read_sigil h
  cases href : reference s with
  | atom e => exact Formula.parse_eq_ok.2 (Or.inl (hread.trans href))
  | refused reason => exact parse_eq_error.2 (Or.inl ⟨reason, hread.trans href, rfl⟩)
  | operation op l r => exact absurd href reference_ne_operation

theorem parse_constant (h : ¬HasOperator s) (hs : s.head? ≠ some '$') : parse s = .ok (constant s) :=
  Formula.parse_eq_ok.2 (Or.inl (read_constant h hs))

/-- **Formulas read flat.** A text without operators is a reference after a sigil, and otherwise a number or the text
itself. With operators it is cut at every `+`, each piece at every `===`, and the atoms are trimmed. It can be read
exactly when its atoms can, and then it is the sum of the comparisons of its atoms, both grouped to the right. So there
is no `+` under a `===`, and there are as many operations as operators in the text. What is refused stands in the
text. -/
theorem parse_flat (s : List Char) :
    (¬HasOperator s →
      (∀ name, s = '$' :: name → (reference name).Settles s (parse s)) ∧
        (s.head? ≠ some '$' →
          (∀ x, number? s = some x → parse s = .ok (.ofBinary64 x)) ∧
            (number? s = none → parse s = .ok (.literal (.str (String.ofList s)))))) ∧
      (HasOperator s → ((∃ e, parse s = .ok e) ↔ AllReadable s) ∧ ∀ e, parse s = .ok e → e = flat s) ∧
      (∀ e, parse s = .ok e →
        NoAddUnderEqual e ∧ e.operations .add = s.count '+' ∧
          e.operations .strictEqual + 1 = (pieces .strictEqual s).length) ∧
      ∀ u, parse s = .error u → u.input.toList <:+: s := by
  refine ⟨fun h => ⟨?_, fun hs => ?_⟩, fun h => ⟨?_, ?_⟩, fun e he => ?_, fun u hu => input_infix_of_parse hu⟩
  · rintro name rfl
    exact settles_of_reference h
  · have hconstant := parse_constant h hs
    unfold constant at hconstant
    constructor
    · intro x hx
      rw [hconstant, hx]
    · intro hx
      rw [hconstant, hx]
  · constructor
    · rintro ⟨e, he⟩
      exact ((parse_iff (Or.inl h)).1 he).1
    · intro hread
      exact ⟨flat s, (parse_iff (Or.inl h)).2 ⟨hread, rfl⟩⟩
  · intro e he
    exact ((parse_iff (Or.inl h)).1 he).2
  · exact ⟨(parse_shape he).1.noAddUnderEqual, operations_of_parse he⟩

/-- a property, a word, and a text that ends with `=` -/
def mixedText : List Char := "$o/p + x===a =".toList

theorem atoms_mixedText : atoms mixedText = [["$o/p".toList], ["x".toList, "a =".toList]] := by
  have hadd : Text.cut? Operator.add.mark mixedText = some ("$o/p ".toList, " x===a =".toList) := by decide
  have hequal : Text.cut? Operator.strictEqual.mark " x===a =".toList = some (" x".toList, "a =".toList) := by decide
  rw [atoms_of_add hadd, atoms_of_not_add (by decide), comparands_of_not_equal (by decide), comparands_of_equal hequal,
    comparands_of_not_equal (by decide)]
  decide

theorem allReadable_mixedText : AllReadable mixedText := by
  have hblank : ∀ c ∈ ['o'] ++ '/' :: ['p'], Text.isBlank c = false :=
    List.forall_mem_cons.2 ⟨rfl, List.forall_mem_cons.2 ⟨rfl, List.forall_mem_singleton.2 rfl⟩⟩
  have hreference : IsReference (['o'] ++ '/' :: ['p']) :=
    isReference_property hblank (by simp) (by simp) (by simp) (by simp)
  have hplain : ∀ a : List Char, a ≠ [] → a.head? ≠ some '$' → IsReadable a := by
    intro a hne hhead
    refine ⟨hne, ?_⟩
    rintro name rfl
    exact absurd rfl hhead
  rw [AllReadable, atoms_mixedText, List.forall_mem_cons, List.forall_mem_singleton, List.forall_mem_singleton,
    List.forall_mem_cons, List.forall_mem_singleton]
  refine ⟨⟨by decide, ?_⟩, hplain _ (by decide) (by decide), hplain _ (by decide) (by decide)⟩
  rintro name heq
  cases heq
  exact hreference

theorem parse_flat_mixedText :
    HasOperator mixedText ∧
      parse mixedText = .ok (.binary .add (.member (.identifier "o") "p")
        (.binary .strictEqual (.literal (.str "x")) (.literal (.str "a =")))) := by
  have hoperator : HasOperator mixedText := ⟨.add, "$o/p ".toList, " x===a =".toList, rfl⟩
  obtain ⟨hok, hflat⟩ := (parse_flat mixedText).2.1 hoperator
  obtain ⟨e, he⟩ := hok.2 allReadable_mixedText
  refine ⟨hoperator, he.trans ?_⟩
  rw [hflat e he, flat, atoms_mixedText]
  cbv

end Formula

end Flowchart
