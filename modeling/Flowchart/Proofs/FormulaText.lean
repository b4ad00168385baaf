/-
Formulas written and read back.

An expression is written as a formula by writing its operands in order, with the operators between them and a blank on
either side. The blanks keep an operand apart from the operator, also where it ends or starts with a part of one. So
the first operator that is found is the one that was written first, and a tree that is grouped as formulas are is read
back, if its operands are.

- `Formula.IsPlain.printed`: an operand is read back: names, integers up to 2^53 and texts that are no numbers.
- `Formula.Printed.binary`: an operation is read back when its operands are, and neither hides the operator.
- `Formula.parse_print`: every tree of such operands is read back.
-/
import Flowchart.Proofs.ExactIntegers
import Flowchart.Proofs.FlatReading

namespace Flowchart

/-- the operands of an expression in order -/
def Expression.operands : Expression → List Expression
  | .binary _ left right => operands left ++ operands right
  | e => [e]

namespace Formula

/-- An expression as a formula: names behind a sigil, constants as they are, and an operator between blanks. What cannot
stand in a formula is left out. -/
def print : Expression → List Char
  | .identifier name => '$' :: name.toList
  | .member (.identifier object) property => '$' :: (object.toList ++ '/' :: property.toList)
  | .literal (.str value) => value.toList
  | .literal (.num value) => value.text
  | .binary operator left right => print left ++ ' ' :: (operator.symbol.toList ++ ' ' :: print right)
  | _ => []

/-! ## Operands -/

/-- a name that a reference can hold -/
structure IsPlainName (s : List Char) : Prop where
  ne_nil : s ≠ []
  not_blank : ∀ c ∈ s, Text.isBlank c = false
  not_separator : '/' ∉ s
  not_hasOperator : ¬HasOperator s

/-- a text that stands for itself -/
structure IsPlainText (s : List Char) : Prop where
  ne_nil : s ≠ []
  trimmed : Text.trim s = s
  not_sigil : s.head? ≠ some '$'
  not_hasOperator : ¬HasOperator s
  not_number : number? s = none

/-- an operand that can be written as a formula -/
inductive IsPlain : Expression → Prop
  | reference (name : String) (h : IsPlainName name.toList) : IsPlain (.identifier name)
  | property (object property : String) (hobject : IsPlainName object.toList)
    (hproperty : IsPlainName property.toList) : IsPlain (.member (.identifier object) property)
  | integer (value : Int) (inRange : -0x8000000000000000 ≤ value ∧ value < 0x10000000000000000)
    (h : value.natAbs ≤ 2 ^ 53) : IsPlain (.literal (.num (.int value inRange)))
  | text (value : String) (h : IsPlainText value.toList) : IsPlain (.literal (.str value))

/-- an expression is read back from its formula, which has no blanks at its ends -/
structure Printed (e : Expression) : Prop where
  ne_nil : print e ≠ []
  trimmed : Text.trim (print e) = print e
  parse_eq : parse (print e) = .ok e

variable {s x y : List Char} {operator : Operator}

theorem not_mem_mark {c : Char} (hc : c ≠ '+' ∧ c ≠ '=') (operator : Operator) : c ∉ operator.mark := by
  cases operator with
  | add => simp [Operator.mark, hc.1]
  | strictEqual => simp [Operator.mark, hc.2]

/-- a character that stands in no operator divides the text -/
theorem hasOperator_append_cons {c : Char} (hc : c ≠ '+' ∧ c ≠ '=') :
    HasOperator (x ++ c :: y) ↔ HasOperator x ∨ HasOperator y := by
  unfold HasOperator
  rw [← exists_or]
  exact exists_congr fun operator => Text.infix_append_cons (not_mem_mark hc operator) operator.mark_ne_nil

theorem not_hasOperator_of_forall (h : ∀ c ∈ s, c ≠ '+' ∧ c ≠ '=') : ¬HasOperator s := by
  rintro ⟨operator, hmark⟩
  cases operator with
  | add => exact (h '+' (hmark.subset List.mem_cons_self)).1 rfl
  | strictEqual => exact (h '=' (hmark.subset List.mem_cons_self)).2 rfl

theorem hasOperator_sigil : HasOperator ('$' :: s) ↔ HasOperator s := by
  have h := hasOperator_append_cons (x := []) (y := s) (c := '$') (by decide)
  have hnil : ¬HasOperator [] := not_hasOperator_of_forall (List.forall_mem_nil _)
  rwa [List.nil_append, or_iff_right hnil] at h

theorem trim_of_not_blank (h : ∀ c ∈ s, Text.isBlank c = false) : Text.trim s = s := by
  rw [Text.trim_eq_self_iff]
  exact ⟨fun c hc => h c (List.mem_of_mem_head? hc), fun c hc => h c (List.mem_of_mem_getLast? hc)⟩

/-- a reference is read back -/
theorem parse_reference {e : Expression} (hs : ¬HasOperator s) (h : reference s = .atom e) :
    parse ('$' :: s) = .ok e := by
  have hsigil : ¬HasOperator ('$' :: s) := fun hs' => hs (hasOperator_sigil.1 hs')
  exact Formula.parse_eq_ok.2 (Or.inl ((read_sigil hsigil).trans h))

theorem referent_name (h : '/' ∉ s) : referent s = .identifier (String.ofList s) := by
  rw [← List.singleton_infix_iff, ← Text.cut?_eq_none (List.cons_ne_nil _ _)] at h
  rw [referent, h]

theorem referent_property (h : '/' ∉ x) :
    referent (x ++ '/' :: y) = .member (.identifier (String.ofList x)) (String.ofList y) := by
  have hcut : Text.cut? ['/'] (x ++ '/' :: y) = some (x, y) := by
    rw [Text.cut?_eq_some_iff (List.cons_ne_nil _ _)]
    refine ⟨rfl, ?_⟩
    rwa [List.dropLast_singleton, List.append_nil, List.singleton_infix_iff]
  rw [referent, hcut]

theorem printed_reference {name : String} (h : IsPlainName name.toList) : Printed (.identifier name) where
  ne_nil := List.cons_ne_nil _ _
  trimmed := trim_of_not_blank (List.forall_mem_cons.2 ⟨rfl, h.not_blank⟩)
  parse_eq := by
    refine parse_reference h.not_hasOperator (reference_eq_atom.2 ⟨?_, ?_⟩)
    · exact isReference_name h.ne_nil h.not_blank h.not_separator
    · rw [referent_name h.not_separator, String.ofList_toList]

theorem printed_property {object property : String} (hobject : IsPlainName object.toList)
    (hproperty : IsPlainName property.toList) : Printed (.member (.identifier object) property) where
  ne_nil := List.cons_ne_nil _ _
  trimmed := by
    apply trim_of_not_blank
    intro c hc
    rcases List.mem_cons.1 hc with rfl | hc
    · rfl
    rcases List.mem_append.1 hc with hc | hc
    · exact hobject.not_blank c hc
    rcases List.mem_cons.1 hc with rfl | hc
    · rfl
    · exact hproperty.not_blank c hc
  parse_eq := by
    have hnone : ¬HasOperator (object.toList ++ '/' :: property.toList) := by
      rw [hasOperator_append_cons (by decide), not_or]
      exact ⟨hobject.not_hasOperator, hproperty.not_hasOperator⟩
    have hblank : ∀ c ∈ object.toList ++ '/' :: property.toList, Text.isBlank c = false := by
      rw [List.forall_mem_append, List.forall_mem_cons]
      exact ⟨hobject.not_blank, rfl, hproperty.not_blank⟩
    refine parse_reference hnone (reference_eq_atom.2 ⟨?_, ?_⟩)
    · exact isReference_property hblank hobject.ne_nil hproperty.ne_nil hobject.not_separator hproperty.not_separator
    · rw [referent_property hobject.not_separator, String.ofList_toList, String.ofList_toList]

/-- the characters of an integer -/
theorem mem_intText {c : Char} {k : Int} (h : c ∈ intText k) : c = '-' ∨ c.isDigit := by
  unfold intText at h
  split at h
  · rcases List.mem_cons.1 h with rfl | h
    · exact Or.inl rfl
    · exact Or.inr (Numeral.isDigit_of_mem_natText c h)
  · exact Or.inr (Numeral.isDigit_of_mem_natText c h)

/-- blanks come before the printable characters of ASCII or after them -/
theorem not_blank_of_printable {c : Char} (h : 0x20 < c.toNat ∧ c.toNat < 0x7f) : Text.isBlank c = false := by
  rw [Text.isBlank, ← Bool.not_eq_true, List.any_eq_true]
  simp only [Text.blankRanges, List.mem_cons, List.not_mem_nil, or_false, Bool.and_eq_true, decide_eq_true_eq]
  rintro ⟨range, hrange, hlow, hhigh⟩
  rcases hrange with rfl | rfl | rfl | rfl | rfl | rfl | rfl | rfl | rfl | rfl <;> omega

/-- a digit or a minus sign is no blank, and stands in no operator -/
theorem plain_of_numeral {c : Char} (h : c = '-' ∨ c.isDigit) :
    Text.isBlank c = false ∧ c ≠ '$' ∧ c ≠ '+' ∧ c ≠ '=' := by
  refine ⟨?_, ?_, ?_, ?_⟩
  · apply not_blank_of_printable
    rcases h with rfl | h
    · decide
    · simp only [Char.isDigit, Bool.and_eq_true, decide_eq_true_eq, ge_iff_le, UInt32.le_iff_toNat_le] at h
      have hlow : 48 ≤ c.toNat := h.1
      have hhigh : c.toNat ≤ 57 := h.2
      omega
  all_goals
    rintro rfl
    exact absurd h (by decide)

theorem printed_integer {k : Int} (inRange : -0x8000000000000000 ≤ k ∧ k < 0x10000000000000000)
    (h : k.natAbs ≤ 2 ^ 53) : Printed (.literal (.num (.int k inRange))) := by
  have hchars : ∀ c ∈ intText k, Text.isBlank c = false ∧ c ≠ '$' ∧ c ≠ '+' ∧ c ≠ '=' :=
    fun c hc => plain_of_numeral (mem_intText hc)
  have htrim : Text.trim (intText k) = intText k := trim_of_not_blank fun c hc => (hchars c hc).1
  have hsigil : (intText k).head? ≠ some '$' :=
    fun hc => (hchars '$' (List.mem_of_mem_head? hc)).2.1 rfl
  have hnone : ¬HasOperator (intText k) := not_hasOperator_of_forall fun c hc => (hchars c hc).2.2
  -- the text is that of a numeral, which is read as a double and stored as the integer again
  obtain ⟨x, hx, hstored⟩ := Number.exists_value?_numeral inRange h
  have hnumber : number? (intText k) = some x := by
    have hplain := Numeral.plain?_written (Number.proper_numeral (.int k inRange))
    rw [Number.written_numeral] at hplain
    rw [number?, htrim, show intText k = Number.text (.int k inRange) from rfl, hplain, Option.bind_some, hx]
  refine ⟨?_, htrim, ?_⟩
  · obtain ⟨c, rest, hcons, -⟩ := (Number.proper_numeral (.int k inRange)).written_eq_cons
    rw [Number.written_numeral] at hcons
    rw [print, hcons]
    exact List.cons_ne_nil c rest
  · have hparse := parse_constant hnone hsigil
    rw [constant, hnumber] at hparse
    rw [print, Number.text, hparse, ← hstored]
    rfl

theorem printed_text {value : String} (h : IsPlainText value.toList) : Printed (.literal (.str value)) where
  ne_nil := h.ne_nil
  trimmed := h.trimmed
  parse_eq := by
    have hparse := parse_constant h.not_hasOperator h.not_sigil
    rw [constant, h.not_number, String.ofList_toList] at hparse
    exact hparse

/-- **An operand is read back from its text.** -/
theorem IsPlain.printed {e : Expression} (h : IsPlain e) : Printed e := by
  rcases h with ⟨name, h⟩ | ⟨object, property, hobject, hproperty⟩ | ⟨k, inRange, h⟩ | ⟨value, h⟩
  · exact printed_reference h
  · exact printed_property hobject hproperty
  · exact printed_integer inRange h
  · exact printed_text h

/-! ## Operations -/

/-- an operator stands in a formula only if the expression has such an operation -/
theorem not_infix_of_parse {e : Expression} (h : parse s = .ok e) (hnone : e.operations operator = 0) :
    ¬operator.mark <:+: s := by
  obtain ⟨hadd, hequal⟩ := operations_of_parse h
  cases operator with
  | add =>
    rw [hnone] at hadd
    exact fun hmark => List.count_eq_zero.1 hadd.symm ((List.singleton_infix_iff _ _).1 hmark)
  | strictEqual =>
    rw [← Text.cut?_eq_none (Operator.mark_ne_nil _)]
    cases hcut : Text.cut? Operator.strictEqual.mark s with
    | none => rfl
    | some sides =>
      have hpos := List.length_pos_iff.2 (pieces_ne_nil .strictEqual sides.2)
      rw [hnone, pieces_of_some hcut, List.length_cons] at hequal
      omega

theorem blank_not_mem_mark (operator : Operator) : ' ' ∉ operator.mark := not_mem_mark (by decide) operator

/-- the blank before an operator keeps it apart from the left operand -/
theorem cut?_spaced (hx : ¬operator.mark <:+: x) :
    Text.cut? operator.mark (x ++ ' ' :: (operator.mark ++ ' ' :: y)) = some (x ++ [' '], ' ' :: y) := by
  rw [Text.cut?_eq_some_iff operator.mark_ne_nil]
  refine ⟨by simp, ?_⟩
  have hspace := blank_not_mem_mark operator
  rw [List.append_assoc, List.singleton_append, Text.infix_append_cons hspace operator.mark_ne_nil, not_or]
  exact ⟨hx, Text.not_infix_dropLast operator.mark_ne_nil⟩

/-- a comparison of operands without `+` has no `+` -/
theorem cut?_add_spaced (hx : ¬Operator.add.mark <:+: x) (hy : ¬Operator.add.mark <:+: y) :
    Text.cut? Operator.add.mark (x ++ ' ' :: (Operator.strictEqual.mark ++ ' ' :: y)) = none := by
  have hspace := blank_not_mem_mark .add
  have hm := Operator.mark_ne_nil .add
  rw [Text.cut?_eq_none hm, Text.infix_append_cons hspace hm, Text.infix_append_cons hspace hm, not_or, not_or]
  exact ⟨hx, by decide, hy⟩

/-- what stands between two trimmed texts is not trimmed -/
theorem trim_between (hx : x ≠ []) (htrimx : Text.trim x = x) (hy : y ≠ []) (htrimy : Text.trim y = y)
    (z : List Char) : Text.trim (x ++ (z ++ y)) = x ++ (z ++ y) := by
  obtain ⟨hstart, -⟩ := Text.trim_eq_self_iff.1 htrimx
  obtain ⟨-, hend⟩ := Text.trim_eq_self_iff.1 htrimy
  rw [Text.trim_eq_self_iff, ← List.append_assoc, List.getLast?_append_of_ne_nil _ hy, List.append_assoc]
  refine ⟨?_, hend⟩
  obtain ⟨c, rest, rfl⟩ := List.exists_cons_of_ne_nil hx
  exact hstart

theorem print_binary (operator : Operator) (l r : Expression) :
    print (.binary operator l r) = print l ++ ' ' :: (operator.mark ++ ' ' :: print r) := by
  rw [print, operator.mark_eq]

/-- **An operation is read back when its operands are.** The left operand must not hold the operator again, and the
operands of a comparison must not hold a `+`. -/
theorem Printed.binary {l r : Expression} (hl : Printed l) (hr : Printed r) (hleft : l.operations operator = 0)
    (hadd : operator = .strictEqual → l.operations .add = 0 ∧ r.operations .add = 0) :
    Printed (.binary operator l r) := by
  have hcut : Text.cut? operator.mark (print (.binary operator l r)) = some (print l ++ [' '], ' ' :: print r) := by
    rw [print_binary]
    exact cut?_spaced (not_infix_of_parse hl.parse_eq hleft)
  have hcuts : Cuts operator (print (.binary operator l r)) (print l ++ [' ']) (' ' :: print r) := by
    cases operator with
    | add => exact .add hcut
    | strictEqual =>
      obtain ⟨hladd, hradd⟩ := hadd rfl
      refine .strictEqual ?_ hcut
      rw [print_binary]
      exact cut?_add_spaced (not_infix_of_parse hl.parse_eq hladd) (not_infix_of_parse hr.parse_eq hradd)
  have hspace : Text.Blank [' '] := List.forall_mem_singleton.2 rfl
  have htriml : Text.trim (print l ++ [' ']) = print l :=
    (Text.trim_pad (List.forall_mem_nil _) (print l) hspace).trans hl.trimmed
  have htrimr : Text.trim (' ' :: print r) = print r := by
    have hpad := Text.trim_pad hspace (print r) (List.forall_mem_nil _)
    rw [List.append_nil] at hpad
    exact hpad.trans hr.trimmed
  refine ⟨?_, ?_, ?_⟩
  · exact List.append_ne_nil_of_left_ne_nil hl.ne_nil _
  · -- the ends of the text are those of the operands
    have htext : print (.binary operator l r) = print l ++ ((' ' :: (operator.mark ++ [' '])) ++ print r) := by
      simp [print_binary]
    rw [htext]
    exact trim_between hl.ne_nil hl.trimmed hr.ne_nil hr.trimmed _
  · rw [hcuts.parse_eq_ok, htriml, htrimr]
    exact ⟨⟨hl.ne_nil, hr.ne_nil⟩, l, r, hl.parse_eq, hr.parse_eq, rfl⟩

theorem IsAtom.operands_eq {e : Expression} (h : IsAtom e) : e.operands = [e] := by
  cases h <;> rfl

theorem IsComparison.printed {e : Expression} (h : IsComparison e) (hplain : ∀ a ∈ e.operands, IsPlain a) :
    Printed e := by
  induction h with
  | atom h =>
    rw [h.operands_eq, List.forall_mem_singleton] at hplain
    exact hplain.printed
  | equal hl hr ih =>
    rw [Expression.operands, List.forall_mem_append, hl.operands_eq, List.forall_mem_singleton] at hplain
    refine hplain.1.printed.binary (ih hplain.2) (hl.operations_eq _) fun _ => ?_
    exact ⟨hl.operations_eq .add, hr.operations_add⟩

/-- **Formulas are read back.** The expression is a sum of comparisons of operands, both grouped to the right, and its
operands can be written as formulas: names, properties, integers up to 2^53 and plain texts. -/
theorem parse_print {e : Expression} (hshape : IsSum e) (hplain : ∀ a ∈ e.operands, IsPlain a) :
    parse (print e) = .ok e := by
  apply Printed.parse_eq
  induction hshape with
  | comparison h => exact h.printed hplain
  | add hl hr ih =>
    rw [Expression.operands, List.forall_mem_append] at hplain
    exact (hl.printed hplain.1).binary (ih hplain.2) hl.operations_add fun heq => nomatch heq

/-- two names, an integer that a double just holds, and a text with a part of an operator at its end -/
def mixedTree : Expression :=
  .binary .add (.member (.identifier "o=") "p")
    (.binary .strictEqual (.literal (.num (.int (-9007199254740992) (by decide)))) (.literal (.str "= a ==")))

theorem parse_print_mixedTree :
    (IsSum mixedTree ∧ ∀ a ∈ mixedTree.operands, IsPlain a) ∧
      print mixedTree = "$o=/p + -9007199254740992 === = a ==".toList ∧ parse (print mixedTree) = .ok mixedTree := by
  have hshape : IsSum mixedTree :=
    .add (.atom (.property _ _)) (.comparison (.equal (.scalar _ rfl) (.atom (.scalar _ rfl))))
  have hobject : IsPlainName "o=".toList :=
    ⟨by decide, List.forall_mem_cons.2 ⟨rfl, List.forall_mem_singleton.2 rfl⟩, by decide,
      not_hasOperator.2 fun operator => by cases operator <;> rfl⟩
  have hproperty : IsPlainName "p".toList :=
    ⟨by decide, List.forall_mem_singleton.2 rfl, by decide, not_hasOperator.2 fun operator => by cases operator <;> rfl⟩
  have htext : IsPlainText "= a ==".toList :=
    ⟨by decide, rfl, by decide, not_hasOperator.2 fun operator => by cases operator <;> rfl, rfl⟩
  have hplain : ∀ a ∈ mixedTree.operands, IsPlain a :=
    List.forall_mem_cons.2 ⟨.property _ _ hobject hproperty, List.forall_mem_cons.2
      ⟨.integer _ _ (by decide), List.forall_mem_singleton.2 (.text _ htext)⟩⟩
  exact ⟨⟨hshape, hplain⟩, by decide, parse_print hshape hplain⟩

end Formula

end Flowchart
