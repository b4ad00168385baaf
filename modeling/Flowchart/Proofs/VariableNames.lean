/-
Names of variables.

Three places of a document name a variable: a property that binds one, a reference to it, and the target of an
assignment. They spell it differently. A property may have blanks at its ends and a sigil, a reference has a sigil and
no blanks, and a target is a plain name with blanks at its ends, or else a reference. A name may start with a sigil
itself, which then stands twice.

- `Formula.Binds`: the variable that a text names in a property, `Node.variableName_eq_ok`.
- `Formula.parse_eq_identifier`: the texts that refer to a variable.
- `Node.variableName_agrees`: the three places name the same variable, blanks around a sigil aside.
-/
import Flowchart.Proofs.FormulaText
import Flowchart.Proofs.Separation

namespace Flowchart

/-! ## The characters of names -/

namespace Text

variable {c : Char} {s : List Char}

/-- the characters of names are printable -/
theorem range_of_isNamePart (h : isNamePart c) : 0x20 < c.toNat ∧ c.toNat < 0x7f := by
  simp only [isNamePart, Bool.or_eq_true, beq_iff_eq] at h
  rcases h with (h | rfl) | rfl
  · simp only [Char.isAlphanum, Char.isAlpha, Char.isUpper, Char.isLower, Char.isDigit, Bool.or_eq_true,
      Bool.and_eq_true, decide_eq_true_eq, ge_iff_le, UInt32.le_iff_toNat_le] at h
    change ((65 ≤ c.toNat ∧ c.toNat ≤ 90) ∨ (97 ≤ c.toNat ∧ c.toNat ≤ 122)) ∨ (48 ≤ c.toNat ∧ c.toNat ≤ 57) at h
    omega
  · decide
  · decide

end Text

namespace Formula

variable {s name : List Char} {x : String}

/-- a name can stand in a reference -/
theorem isPlainName_of_isName (h : Text.isName s) : IsPlainName s := by
  have hpart := Text.isNamePart_of_isName h
  have hne : ∀ c : Char, Text.isNamePart c = false → c ∉ s := by
    intro c hc hmem
    rw [hpart c hmem] at hc
    cases hc
  constructor
  · rintro rfl
    cases h
  · intro c hc
    exact not_blank_of_printable (Text.range_of_isNamePart (hpart c hc))
  · exact hne '/' (by decide)
  · apply not_hasOperator_of_forall
    intro c hc
    constructor
    · rintro rfl
      exact hne '+' (by decide) hc
    · rintro rfl
      exact hne '=' (by decide) hc

/-! ## References -/

theorem constant_ne_identifier : constant s ≠ .identifier x := by
  unfold constant
  split
  · nofun
  · nofun

/-- **The texts that refer to a variable** are its name behind a sigil. -/
theorem parse_eq_identifier : parse s = .ok (.identifier x) ↔ s = '$' :: x.toList ∧ IsPlainName x.toList := by
  constructor
  · intro h
    by_cases hs : HasOperator s
    · obtain ⟨operator, left, right, hcut⟩ := exists_cuts hs
      obtain ⟨-, l, r, -, -, he⟩ := hcut.parse_eq_ok.1 h
      cases he
    · obtain ⟨href, he⟩ := (parse_atom hs).1 h
      by_cases hsigil : s.head? = some '$'
      · obtain ⟨name, rfl⟩ := List.head?_eq_some_iff.1 hsigil
        have hreference := href name rfl
        rw [operand, referent] at he
        split at he
        · -- without a separator the reference is all name
          rename_i hcut
          cases he
          rw [Text.cut?_eq_none (List.cons_ne_nil _ _), List.singleton_infix_iff] at hcut
          rw [String.toList_ofList]
          refine ⟨rfl, hreference.ne_nil, hreference.not_blank, hcut, ?_⟩
          intro hname
          exact hs (hasOperator_sigil.2 hname)
        · cases he
      · rw [operand_constant hsigil] at he
        exact absurd he.symm constant_ne_identifier
  · rintro ⟨rfl, h⟩
    exact (printed_reference h).parse_eq

/-! ## Bound names -/

/-- The text names this variable. Without the blanks at its ends it is the name, which then starts with no sigil, or the
name behind a sigil. -/
inductive Binds : List Char → List Char → Prop
  | plain {s : List Char} (h : (Text.trim s).head? ≠ some '$') (hname : Text.isName (Text.trim s)) :
    Binds s (Text.trim s)
  | sigil {s name : List Char} (h : Text.trim s = '$' :: name) (hname : Text.isName name) : Binds s name

theorem boundName?_sigil {r : String} (h : Text.trim r.toList = '$' :: name) :
    boundName? (.str r) = if Text.isName name then some (String.ofList name) else none := by
  simp only [boundName?, h]

theorem boundName?_plain {r : String} (h : (Text.trim r.toList).head? ≠ some '$') :
    boundName? (.str r) =
      if Text.isName (Text.trim r.toList) then some (String.ofList (Text.trim r.toList)) else none := by
  rw [boundName?]
  split
  · rename_i hsigil
    rw [hsigil] at h
    exact absurd rfl h
  · rfl

/-- the variable that a text names is read from it -/
theorem boundName?_str {r : String} : boundName? (.str r) = some x ↔ Binds r.toList x.toList := by
  by_cases hsigil : (Text.trim r.toList).head? = some '$'
  · obtain ⟨name, hname⟩ := List.head?_eq_some_iff.1 hsigil
    rw [boundName?_sigil hname, Option.ite_none_right_eq_some, Option.some.injEq]
    constructor
    · rintro ⟨hisName, rfl⟩
      rw [String.toList_ofList]
      exact .sigil hname hisName
    · intro h
      generalize hx : x.toList = y at h
      cases h with
      | plain h _ => exact absurd hsigil h
      | sigil h hisName =>
        rw [h] at hname
        cases hname
        exact ⟨hisName, by rw [← hx, String.ofList_toList]⟩
  · rw [boundName?_plain hsigil, Option.ite_none_right_eq_some, Option.some.injEq]
    constructor
    · rintro ⟨hisName, rfl⟩
      rw [String.toList_ofList]
      exact .plain hsigil hisName
    · intro h
      generalize hx : x.toList = y at h
      cases h with
      | plain _ hisName => exact ⟨hisName, by rw [← hx, String.ofList_toList]⟩
      | sigil h _ =>
        rw [h] at hsigil
        exact absurd rfl hsigil

theorem boundName?_eq_some {v : Json} :
    boundName? v = some x ↔ ∃ r : String, v = .str r ∧ Binds r.toList x.toList := by
  cases v with
  | str r => simp only [boundName?_str, Json.str.injEq, exists_eq_left']
  | _ =>
    constructor
    · intro h
      cases h
    · rintro ⟨r, h, -⟩
      cases h

/-! ## Targets -/

/-- a reference has no blanks at its ends -/
theorem IsPlainName.trim_sigil (h : IsPlainName s) : Text.trim ('$' :: s) = '$' :: s :=
  trim_of_not_blank (List.forall_mem_cons.2 ⟨rfl, h.not_blank⟩)

theorem target_plain {r : String} (h : (Text.trim r.toList).head? ≠ some '$')
    (hname : Text.isName (Text.trim r.toList)) :
    target (.str r) = .ok (.identifier (String.ofList (Text.trim r.toList))) := by
  simp only [target, plainName?, if_pos (And.intro h hname)]

theorem target_of_not_plain {r : String}
    (h : ¬((Text.trim r.toList).head? ≠ some '$' ∧ Text.isName (Text.trim r.toList))) :
    target (.str r) = parse r.toList := by
  simp only [target, plainName?, if_neg h, ofJson]

/-- **The targets that are a variable**: the text is a plain name, blanks at its ends aside, or a reference. -/
theorem target_eq_identifier {r : String} :
    target (.str r) = .ok (.identifier x) ↔
      ((Text.trim r.toList).head? ≠ some '$' ∧ Text.isName x.toList ∧ Text.trim r.toList = x.toList) ∨
        (r.toList = '$' :: x.toList ∧ IsPlainName x.toList) := by
  by_cases hplain : (Text.trim r.toList).head? ≠ some '$' ∧ Text.isName (Text.trim r.toList)
  · rw [target_plain hplain.1 hplain.2, Except.ok.injEq, Expression.identifier.injEq]
    constructor
    · rintro rfl
      rw [String.toList_ofList]
      exact Or.inl ⟨hplain.1, hplain.2, rfl⟩
    · rintro (⟨-, -, h⟩ | ⟨h, hx⟩)
      · rw [h, String.ofList_toList]
      · -- a reference starts with a sigil
        rw [h, hx.trim_sigil] at hplain
        exact absurd rfl hplain.1
  · rw [target_of_not_plain hplain, parse_eq_identifier]
    constructor
    · intro h
      exact Or.inr h
    · rintro (⟨hhead, hname, h⟩ | h)
      · rw [← h] at hname
        exact absurd ⟨hhead, hname⟩ hplain
      · exact h

namespace Binds

theorem isName (h : Binds s name) : Text.isName name := by
  cases h with
  | plain _ hname => exact hname
  | sigil _ hname => exact hname

/-- as a target, the text names the same variable if it is trimmed or has no sigil -/
theorem target_iff {r : String} (h : Binds r.toList x.toList) :
    target (.str r) = .ok (.identifier x) ↔
      Text.trim r.toList = r.toList ∨ (Text.trim r.toList).head? ≠ some '$' := by
  rw [target_eq_identifier]
  have hname := h.isName
  generalize hx : x.toList = y at h hname ⊢
  cases h with
  | plain hhead _ =>
    constructor
    · intro _
      exact Or.inr hhead
    · intro _
      exact Or.inl ⟨hhead, hname, rfl⟩
  | sigil htrim _ =>
    rw [htrim]
    constructor
    · rintro (⟨hhead, -⟩ | ⟨hr, -⟩)
      · exact absurd rfl hhead
      · exact Or.inl hr.symm
    · rintro (hr | hhead)
      · exact Or.inr ⟨hr.symm, isPlainName_of_isName hname⟩
      · exact absurd rfl hhead

end Binds

end Formula

namespace Node

/-- a property that binds a variable holds a text that names it -/
theorem variableName_eq_ok (n : Node) {name : String} {others : List String} {x : String} :
    n.variableName name others = .ok x ↔
      ∃ r : String, n.property? (name :: others) = some (.str r) ∧ Formula.Binds r.toList x.toList := by
  simp only [variableName, bind_eq_ok, required_eq_ok]
  constructor
  · rintro ⟨v, hv, h⟩
    split at h
    · rename_i y hy
      rw [pure_eq_ok] at h
      subst h
      obtain ⟨r, rfl, hbinds⟩ := Formula.boundName?_eq_some.1 hy
      exact ⟨r, hv, hbinds⟩
    · cases h
  · rintro ⟨r, hr, hbinds⟩
    refine ⟨.str r, hr, ?_⟩
    rw [Formula.boundName?_str.2 hbinds]
    rfl

/-- **The places that name a variable agree.** A reference to a variable that a property binds is that variable. The
text of the property, as the target of an assignment, is the variable as well, unless there are blanks around a sigil.
And if the target of an assignment is a variable with a proper name, then a property with the same text binds it. -/
theorem variableName_agrees (n : Node) (name : String) (others : List String) (r : String)
    (h : n.property? (name :: others) = some (.str r)) :
    (∀ x, n.variableName name others = .ok x →
      Formula.parse ('$' :: x.toList) = .ok (.identifier x) ∧
        (Formula.target (.str r) = .ok (.identifier x) ↔
          ((∀ c ∈ r.toList.head?, Text.isBlank c = false) ∧ ∀ c ∈ r.toList.getLast?, Text.isBlank c = false) ∨
            (Text.trim r.toList).head? ≠ some '$')) ∧
      ∀ x, Formula.target (.str r) = .ok (.identifier x) → Text.isName x.toList →
        n.variableName name others = .ok x := by
  have hvariable : ∀ x, n.variableName name others = .ok x ↔ Formula.Binds r.toList x.toList := by
    intro x
    rw [variableName_eq_ok, h]
    simp only [Option.some.injEq, Json.str.injEq, exists_eq_left']
  simp only [hvariable]
  refine ⟨fun x hx => ⟨?_, ?_⟩, ?_⟩
  · exact Formula.parse_eq_identifier.2 ⟨rfl, Formula.isPlainName_of_isName hx.isName⟩
  · rw [← Text.trim_eq_self_iff]
    exact hx.target_iff
  · intro x htarget hname
    rcases Formula.target_eq_identifier.1 htarget with ⟨hhead, -, heq⟩ | ⟨heq, hx⟩
    · rw [← heq] at hname ⊢
      exact .plain hhead hname
    · apply Formula.Binds.sigil _ hname
      rw [heq, hx.trim_sigil]

/-- a call whose result is bound with blanks and two sigils -/
def spacedCall : Node := ⟨"c", .httpCall, [("saveAs", .str " $$x")], []⟩

theorem variableName_agrees_spacedCall :
    spacedCall.variableName "saveAs" [] = .ok "$x" ∧ Formula.parse "$$x".toList = .ok (.identifier "$x") ∧
      Formula.target (.str " $$x") ≠ .ok (.identifier "$x") := by
  have hname : spacedCall.variableName "saveAs" [] = .ok "$x" := by decide
  obtain ⟨hparse, htarget⟩ := (variableName_agrees spacedCall "saveAs" [] " $$x" rfl).1 "$x" hname
  refine ⟨hname, hparse, ?_⟩
  rw [ne_eq, htarget]
  rintro (⟨hfirst, -⟩ | hhead)
  · cases hfirst ' ' rfl
  · exact hhead rfl

end Node

end Flowchart
