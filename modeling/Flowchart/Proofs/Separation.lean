/-
Telling a text from what follows it.

The source text of a formula has no brackets and no closing mark, so where a part of it ends is seen from what follows
only: a name goes on as long as there are characters of names, a numeral as long as there are digits, and a formula as
long as there are operators. Where two texts of one sort are each followed by something that does not go on with it, and
the whole is the same, the texts are the same and so is what follows (`Separable`).

- `separable_compact`: literals, before what does not go on with a numeral.
- `separable_name`, `separable_keySource`: names and keys.
- `separable_atom`, `separable_comparison`, `separable_formula`: operands and formulas.
- `separable_object`: the parameters of a call.
-/
import Flowchart.Proofs.JsonReading
import Flowchart.Proofs.Shape

namespace Flowchart

/-- Two texts of this sort that are followed by what may follow them are told from it: they are equal if the whole is,
and so is what follows. -/
def Separable {α : Type} (text : α → List Char) (sort : α → Prop) (follows : List Char → Prop) : Prop :=
  ∀ {x y : α} {r r' : List Char}, sort x → sort y → follows r → follows r' → text x ++ r = text y ++ r' → x = y ∧ r = r'

/-! ## Literals -/

namespace Json

theorem numeral_injective {n n' : Number} (h : n.numeral = n'.numeral) : n = n' := by
  have hread := n.ofNumeral?_numeral
  rw [h, n'.ofNumeral?_numeral] at hread
  exact (Option.some.inj hread).symm

/-- the value is told from its fragment -/
def FragmentInjective (v : Json) : Prop := ∀ w : Json, v.fragment = w.fragment → v = w

theorem fragmentItems_injective {items items' : List Json} (hitems : ∀ v ∈ items, v.FragmentInjective)
    (h : fragmentItems items = fragmentItems items') : items = items' := by
  induction items generalizing items' with
  | nil =>
    cases items' with
    | nil => rfl
    | cons v' items' => cases h
  | cons v items ih =>
    cases items' with
    | nil => cases h
    | cons v' items' =>
      obtain ⟨hv, hitems⟩ := List.forall_mem_cons.1 hitems
      simp only [fragmentItems, List.cons.injEq] at h
      rw [hv v' h.1, ih hitems h.2]

theorem fragmentMembers_injective {members members' : List (String × Json)}
    (hmembers : ∀ m ∈ members, m.2.FragmentInjective) (h : fragmentMembers members = fragmentMembers members') :
    members = members' := by
  induction members generalizing members' with
  | nil =>
    cases members' with
    | nil => rfl
    | cons m' members' => cases h
  | cons m members ih =>
    cases members' with
    | nil => cases h
    | cons m' members' =>
      obtain ⟨hm, hmembers⟩ := List.forall_mem_cons.1 hmembers
      simp only [fragmentMembers, List.cons.injEq, Prod.mk.injEq, Option.some.injEq] at h
      rw [Prod.ext h.1.1 (hm m'.2 h.1.2), ih hmembers h.2]

theorem fragment_injective (v : Json) : v.FragmentInjective := by
  induction v using Json.induction with
  | null =>
    intro w h
    cases w with
    | null => rfl
    | _ => cases h
  | bool b =>
    intro w h
    cases w with
    | bool b' =>
      cases h
      rfl
    | _ => cases h
  | num n =>
    intro w h
    cases w with
    | num n' => rw [numeral_injective (Fragment.num.inj h)]
    | _ => cases h
  | str s =>
    intro w h
    cases w with
    | str s' =>
      cases h
      rfl
    | _ => cases h
  | arr items ih =>
    intro w h
    cases w with
    | arr items' => rw [fragmentItems_injective ih (Fragment.arr.inj h).1]
    | _ => cases h
  | obj members ih =>
    intro w h
    cases w with
    | obj members' => rw [fragmentMembers_injective ih (Fragment.obj.inj h).1]
    | _ => cases h

/-- the tokens of a value are told from those that follow -/
theorem tokens_append_inj {v w : Json} {ts ts' : List Token} (h : v.tokens ++ ts = w.tokens ++ ts') : v = w := by
  -- a machine that has read a value keeps it, whatever tokens follow
  have hdone : ∀ (f : Fragment) (whole : Bool) (ts : List Token),
      ((Machine.done f whole).run ts).finish.1 = f := by
    intro f whole ts
    induction ts generalizing whole with
    | nil => rfl
    | cons t ts ih => exact ih false
  have hread : ∀ (v : Json) (ts : List Token),
      ((Machine.reading .value []).run (v.tokens ++ ts)).finish.1 = v.fragment := by
    intro v ts
    rw [Machine.run_append, v.run_tokens, Machine.put, hdone]
  apply v.fragment_injective
  rw [← hread v ts, h, hread w ts']

end Json

/-- **Literals are told from what follows**, if that does not go on with a numeral. -/
theorem separable_compact : Separable Json.compact (fun _ => True) Numeral.Ends := by
  intro v w r r' _ _ hr hr' h
  have htokens := congrArg Token.tokens h
  rw [v.spells_compact r hr, w.spells_compact r' hr'] at htokens
  have hv := Json.tokens_append_inj htokens
  subst hv
  exact ⟨rfl, List.append_cancel_left h⟩

/-! ## Names and keys -/

namespace Text

/-- texts of these characters are told from what does not start with one -/
theorem append_inj_of_all {p : Char → Bool} {s s' r r' : List Char} (hs : ∀ c ∈ s, p c) (hs' : ∀ c ∈ s', p c)
    (hr : ∀ c ∈ r.head?, p c = false) (hr' : ∀ c ∈ r'.head?, p c = false) (h : s ++ r = s' ++ r') :
    s = s' ∧ r = r' := by
  have htake : ∀ {s r : List Char}, (∀ c ∈ s, p c) → (∀ c ∈ r.head?, p c = false) → (s ++ r).takeWhile p = s := by
    intro s r hs hr
    have hnil : r.takeWhile p = [] := by
      cases r with
      | nil => rfl
      | cons c r => rw [List.takeWhile_cons, hr c rfl, if_neg Bool.false_ne_true]
    rw [List.takeWhile_append_of_pos hs, hnil, List.append_nil]
  have heq : s = s' := by rw [← htake hs hr, h, htake hs' hr']
  subst heq
  exact ⟨rfl, List.append_cancel_left h⟩

theorem isNamePart_of_isName {s : List Char} (h : isName s) : ∀ c ∈ s, isNamePart c := by
  cases s with
  | nil => nofun
  | cons c s =>
    rw [isName, Bool.and_eq_true, List.all_eq_true] at h
    rw [List.forall_mem_cons]
    refine ⟨?_, h.2⟩
    have hstart := h.1
    simp only [isNameStart, isNamePart, Char.isAlphanum, Bool.or_eq_true] at hstart ⊢
    tauto

/-- a text that does not go on with a name -/
def EndsName (rest : List Char) : Prop := ∀ c ∈ rest.head?, isNamePart c = false

theorem endsName_cons {c : Char} (hc : isNamePart c = false) (s : List Char) : EndsName (c :: s) := by
  rintro _ ⟨⟩
  exact hc

end Text

/-- names are told from what follows, if that does not go on with a name -/
theorem separable_name : Separable String.toList (fun name => Text.isName name.toList) Text.EndsName := by
  intro x y r r' hx hy hr hr' h
  obtain ⟨hxy, hrest⟩ :=
    Text.append_inj_of_all (Text.isNamePart_of_isName hx) (Text.isNamePart_of_isName hy) hr hr' h
  exact ⟨String.toList_injective hxy, hrest⟩

/-- a name starts with a letter, an underscore or a dollar sign -/
theorem Text.isName_eq_cons {s : List Char} (h : isName s) : ∃ c t, s = c :: t ∧ isNameStart c := by
  cases s with
  | nil => cases h
  | cons c t =>
    rw [isName, Bool.and_eq_true] at h
    exact ⟨c, t, rfl, h.1⟩

/-- a name is no quoted text -/
theorem name_ne_quote {s k r r' : List Char} (h : Text.isName s) : s ++ r ≠ quote k ++ r' := by
  obtain ⟨c, t, rfl, hc⟩ := Text.isName_eq_cons h
  intro heq
  cases (List.cons.inj heq).1
  cases hc

/-- keys are told from the colon that follows -/
theorem separable_keySource : Separable keySource (fun _ => True) fun r => ∃ s, r = ':' :: s := by
  rintro k k' _ _ - - ⟨s, rfl⟩ ⟨s', rfl⟩ h
  have hname : ∀ s : List Char, Text.EndsName (':' :: s) := Text.endsName_cons rfl
  have hnumeral : ∀ s : List Char, Numeral.Ends (':' :: s) := Numeral.ends_cons rfl
  unfold keySource at h
  split at h
  · rename_i hk
    split at h
    · rename_i hk'
      exact separable_name hk hk' (hname s) (hname s') h
    · exact absurd h (name_ne_quote hk)
  · split at h
    · rename_i hk'
      exact absurd h.symm (name_ne_quote hk')
    · have hquote : (Json.str k).compact ++ ':' :: s = (Json.str k').compact ++ ':' :: s' := h
      obtain ⟨hkk, hrest⟩ := separable_compact trivial trivial (hnumeral s) (hnumeral s') hquote
      exact ⟨Json.str.inj hkk, hrest⟩

/-! ## Operands -/

namespace Expression

/-- The name that an expression shows is a name. A variable has none of the names of literals. -/
def PlainName : Expression → Prop
  | .identifier name => Text.isName name.toList ∧ name ∉ ["true", "false", "null"]
  | .member _ property => Text.isName property.toList
  | _ => True

/-- all variables and properties in the expression have plain names, what is called aside -/
def Plain (e : Expression) : Prop := ∀ x ∈ e.parts false, x.PlainName

instance : DecidablePred PlainName
  | .identifier name => inferInstanceAs (Decidable (Text.isName name.toList ∧ name ∉ ["true", "false", "null"]))
  | .member _ property => inferInstanceAs (Decidable (Text.isName property.toList))
  | .literal _ => .isTrue trivial
  | .binary _ _ _ => .isTrue trivial
  | .assignment _ _ => .isTrue trivial
  | .asyncCall _ _ => .isTrue trivial
  | .object _ => .isTrue trivial

instance (e : Expression) : Decidable e.Plain := inferInstanceAs (Decidable (∀ x ∈ e.parts false, x.PlainName))

theorem plain_identifier {name : String} :
    (identifier name).Plain ↔ Text.isName name.toList ∧ name ∉ ["true", "false", "null"] :=
  List.forall_mem_singleton

theorem plain_member {base : Expression} {property : String} :
    (member base property).Plain ↔ Text.isName property.toList ∧ base.Plain :=
  List.forall_mem_cons

theorem plain_binary {operator : Operator} {left right : Expression} :
    (binary operator left right).Plain ↔ left.Plain ∧ right.Plain := by
  unfold Plain
  rw [parts, List.forall_mem_cons, List.forall_mem_append]
  exact and_iff_right trivial

theorem plain_assignment {left right : Expression} : (assignment left right).Plain ↔ left.Plain ∧ right.Plain := by
  unfold Plain
  rw [parts, List.forall_mem_cons, List.forall_mem_append]
  exact and_iff_right trivial

end Expression

/-- what may follow an operand: a blank, the end of a statement or bracket, a comma -/
inductive EndsOperand : List Char → Prop
  | blank (s : List Char) : EndsOperand (' ' :: s)
  | statement (s : List Char) : EndsOperand (';' :: s)
  | bracket (s : List Char) : EndsOperand (')' :: s)
  | comma (s : List Char) : EndsOperand (',' :: s)

namespace EndsOperand

variable {r : List Char}

theorem endsName (h : EndsOperand r) : Text.EndsName r := by
  cases h <;> exact Text.endsName_cons rfl _

theorem ends (h : EndsOperand r) : Numeral.Ends r := by
  cases h <;> exact Numeral.ends_cons rfl _

theorem ne_point (h : EndsOperand r) {s : List Char} : r ≠ '.' :: s := by
  cases h <;> simp

end EndsOperand

/-- a numeral does not start like a name -/
theorem isNameStart_of_numeral {c : Char} (hc : c = '-' ∨ c.isDigit) : Text.isNameStart c = false := by
  rcases hc with rfl | hc
  · rfl
  · simp only [Char.isDigit, Bool.and_eq_true, decide_eq_true_eq, ge_iff_le, UInt32.le_iff_toNat_le] at hc
    simp only [Text.isNameStart, Char.isAlpha, Char.isUpper, Char.isLower, Bool.or_eq_false_iff, Bool.and_eq_false_iff,
      decide_eq_false_iff_not, ge_iff_le, UInt32.le_iff_toNat_le, beq_eq_false_iff_ne]
    have hlow : 48 ≤ c.val.toNat := hc.1
    have hhigh : c.val.toNat ≤ 57 := hc.2
    refine ⟨⟨⟨?_, Or.inl ?_⟩, ?_⟩, ?_⟩
    · intro h
      have hA : 65 ≤ c.val.toNat := h.1
      omega
    · intro h
      have ha : 97 ≤ c.val.toNat := h
      omega
    · rintro rfl
      exact absurd hhigh (by decide)
    · rintro rfl
      exact absurd hlow (by decide)

/-- a variable is no scalar -/
theorem name_ne_scalar {name : String} {value : Json} {r r' : List Char} (hname : (Expression.identifier name).Plain)
    (hvalue : value.isScalar) (hr : Text.EndsName r) (hr' : Text.EndsName r') :
    name.toList ++ r ≠ value.compact ++ r' := by
  intro h
  obtain ⟨hname, hword⟩ := Expression.plain_identifier.1 hname
  -- a literal that is a word would be the name
  have hwords : ∀ word : String, word ∈ ["true", "false", "null"] → Text.isName word.toList →
      name.toList ++ r ≠ word.toList ++ r' := by
    intro word hmem hisName heq
    obtain ⟨rfl, -⟩ := separable_name hname hisName hr hr' heq
    exact hword hmem
  cases value with
  | null => exact hwords "null" (by simp) rfl h
  | bool b =>
    cases b with
    | true => exact hwords "true" (by simp) rfl h
    | false => exact hwords "false" (by simp) rfl h
  | num n =>
    obtain ⟨c, s, hs, hc⟩ := n.proper_numeral.written_eq_cons
    rw [n.written_numeral] at hs
    obtain ⟨c', t, ht, hstart⟩ := Text.isName_eq_cons hname
    have htext : name.toList ++ r = n.text ++ r' := h
    rw [hs, ht] at htext
    rw [(List.cons.inj htext).1, isNameStart_of_numeral hc] at hstart
    cases hstart
  | str s => exact name_ne_quote hname h
  | arr items => cases hvalue
  | obj members => cases hvalue

/-- a property of a variable, and what follows it -/
theorem source_property_append (object property : String) (r : List Char) :
    (Expression.member (.identifier object) property).source ++ r = object.toList ++ '.' :: (property.toList ++ r) := by
  simp [Expression.isGrouped]

/-- **Operands are told from what follows.** -/
theorem separable_atom : Separable Expression.source (fun e => Formula.IsAtom e ∧ e.Plain) EndsOperand := by
  rintro a b r r' ⟨ha, hpa⟩ ⟨hb, hpb⟩ hr hr' h
  -- before a point there is a name, too
  have hpoint : ∀ s : List Char, Text.EndsName ('.' :: s) := Text.endsName_cons rfl
  cases ha with
  | reference name =>
    cases hb with
    | reference name' =>
      obtain ⟨rfl, hrest⟩ := separable_name (Expression.plain_identifier.1 hpa).1 (Expression.plain_identifier.1 hpb).1
        hr.endsName hr'.endsName h
      exact ⟨rfl, hrest⟩
    | property object' property' =>
      rw [source_property_append] at h
      have hobject := (Expression.plain_identifier.1 (Expression.plain_member.1 hpb).2).1
      obtain ⟨-, hrest⟩ := separable_name (Expression.plain_identifier.1 hpa).1 hobject hr.endsName (hpoint _) h
      exact absurd hrest hr.ne_point
    | scalar value' hvalue' => exact absurd h (name_ne_scalar hpa hvalue' hr.endsName hr'.endsName)
  | property object property =>
    rw [source_property_append] at h
    obtain ⟨hproperty, hpobject⟩ := Expression.plain_member.1 hpa
    have hobject := (Expression.plain_identifier.1 hpobject).1
    cases hb with
    | reference name' =>
      obtain ⟨-, hrest⟩ := separable_name hobject (Expression.plain_identifier.1 hpb).1 (hpoint _) hr'.endsName h
      exact absurd hrest.symm hr'.ne_point
    | property object' property' =>
      rw [source_property_append] at h
      obtain ⟨hproperty', hpobject'⟩ := Expression.plain_member.1 hpb
      obtain ⟨rfl, hrest⟩ := separable_name hobject (Expression.plain_identifier.1 hpobject').1 (hpoint _) (hpoint _) h
      obtain ⟨rfl, htail⟩ := separable_name hproperty hproperty' hr.endsName hr'.endsName (List.cons.inj hrest).2
      exact ⟨rfl, htail⟩
    | scalar value' hvalue' => exact absurd h (name_ne_scalar hpobject hvalue' (hpoint _) hr'.endsName)
  | scalar value hvalue =>
    cases hb with
    | reference name' => exact absurd h.symm (name_ne_scalar hpb hvalue hr'.endsName hr.endsName)
    | property object' property' =>
      rw [source_property_append] at h
      exact absurd h.symm (name_ne_scalar (Expression.plain_member.1 hpb).2 hvalue (hpoint _) hr.endsName)
    | scalar value' hvalue' =>
      obtain ⟨rfl, hrest⟩ := separable_compact trivial trivial hr.ends hr'.ends h
      exact ⟨rfl, hrest⟩

/-! ## Formulas -/

/-- what may follow a formula: the end of a statement or bracket, a comma, the end of an object, an assignment -/
inductive EndsFormula : List Char → Prop
  | statement (s : List Char) : EndsFormula (';' :: s)
  | bracket (s : List Char) : EndsFormula (')' :: s)
  | comma (s : List Char) : EndsFormula (',' :: s)
  | object (s : List Char) : EndsFormula (' ' :: '}' :: s)
  | assignment (s : List Char) : EndsFormula (' ' :: '=' :: ' ' :: s)

/-- what may follow a comparison: what may follow a formula, or a `+` -/
inductive EndsComparison : List Char → Prop
  | formula {r : List Char} (h : EndsFormula r) : EndsComparison r
  | add (s : List Char) : EndsComparison (' ' :: '+' :: ' ' :: s)

theorem EndsFormula.endsOperand {r : List Char} (h : EndsFormula r) : EndsOperand r := by
  cases h with
  | statement s => exact .statement s
  | bracket s => exact .bracket s
  | comma s => exact .comma s
  | object s => exact .blank _
  | assignment s => exact .blank _

theorem EndsComparison.endsOperand {r : List Char} (h : EndsComparison r) : EndsOperand r := by
  cases h with
  | formula h => exact h.endsOperand
  | add s => exact .blank _

theorem EndsFormula.ne_add {r s : List Char} (h : EndsFormula r) : r ≠ ' ' :: '+' :: s := by
  cases h <;> simp

theorem EndsComparison.ne_equal {r s : List Char} (h : EndsComparison r) : r ≠ ' ' :: '=' :: '=' :: s := by
  cases h with
  | formula h => cases h <;> simp
  | add s => simp

theorem source_equal_append (left right : Expression) (r : List Char) :
    (Expression.binary .strictEqual left right).source ++ r =
      left.source ++ ' ' :: '=' :: '=' :: '=' :: ' ' :: (right.source ++ r) := by
  simp [Operator.symbol]

theorem source_add_append (left right : Expression) (r : List Char) :
    (Expression.binary .add left right).source ++ r = left.source ++ ' ' :: '+' :: ' ' :: (right.source ++ r) := by
  simp [Operator.symbol]

/-- **Comparisons are told from what follows.** -/
theorem separable_comparison :
    Separable Expression.source (fun e => Formula.IsComparison e ∧ e.Plain) EndsComparison := by
  rintro e e' r r' ⟨he, hp⟩ ⟨he', hp'⟩ hr hr' h
  induction he generalizing e' with
  | atom ha =>
    cases he' with
    | atom ha' => exact separable_atom ⟨ha, hp⟩ ⟨ha', hp'⟩ hr.endsOperand hr'.endsOperand h
    | equal hl' _ =>
      rw [source_equal_append] at h
      obtain ⟨-, hrest⟩ :=
        separable_atom ⟨ha, hp⟩ ⟨hl', (Expression.plain_binary.1 hp').1⟩ hr.endsOperand (.blank _) h
      exact absurd hrest hr.ne_equal
  | equal hl _ ih =>
    rw [source_equal_append] at h
    obtain ⟨hpl, hpr⟩ := Expression.plain_binary.1 hp
    cases he' with
    | atom ha' =>
      obtain ⟨-, hrest⟩ := separable_atom ⟨hl, hpl⟩ ⟨ha', hp'⟩ (.blank _) hr'.endsOperand h
      exact absurd hrest.symm hr'.ne_equal
    | equal hl' hright' =>
      rw [source_equal_append] at h
      obtain ⟨hpl', hpr'⟩ := Expression.plain_binary.1 hp'
      obtain ⟨rfl, hrest⟩ := separable_atom ⟨hl, hpl⟩ ⟨hl', hpl'⟩ (.blank _) (.blank _) h
      simp only [List.cons.injEq, true_and] at hrest
      obtain ⟨rfl, htail⟩ := ih hpr hright' hpr' hrest
      exact ⟨rfl, htail⟩

/-- a formula with plain names -/
def Expression.PlainFormula (e : Expression) : Prop := Formula.IsSum e ∧ e.Plain

/-- **Formulas are told from what follows.** -/
theorem separable_formula : Separable Expression.source Expression.PlainFormula EndsFormula := by
  rintro e e' r r' ⟨he, hp⟩ ⟨he', hp'⟩ hr hr' h
  induction he generalizing e' with
  | comparison hc =>
    cases he' with
    | comparison hc' => exact separable_comparison ⟨hc, hp⟩ ⟨hc', hp'⟩ (.formula hr) (.formula hr') h
    | add hl' _ =>
      rw [source_add_append] at h
      obtain ⟨-, hrest⟩ :=
        separable_comparison ⟨hc, hp⟩ ⟨hl', (Expression.plain_binary.1 hp').1⟩ (.formula hr) (.add _) h
      exact absurd hrest hr.ne_add
  | add hl _ ih =>
    rw [source_add_append] at h
    obtain ⟨hpl, hpr⟩ := Expression.plain_binary.1 hp
    cases he' with
    | comparison hc' =>
      obtain ⟨-, hrest⟩ := separable_comparison ⟨hl, hpl⟩ ⟨hc', hp'⟩ (.add _) (.formula hr') h
      exact absurd hrest.symm hr'.ne_add
    | add hl' hright' =>
      rw [source_add_append] at h
      obtain ⟨hpl', hpr'⟩ := Expression.plain_binary.1 hp'
      obtain ⟨rfl, hrest⟩ := separable_comparison ⟨hl, hpl⟩ ⟨hl', hpl'⟩ (.add _) (.add _) h
      simp only [List.cons.injEq, true_and] at hrest
      obtain ⟨rfl, htail⟩ := ih hpr hright' hpr' hrest
      exact ⟨rfl, htail⟩

/-! ## Objects -/

/-- the values of the properties are formulas with plain names -/
def PlainProperties (ps : List (String × Expression)) : Prop := ∀ p ∈ ps, p.2.PlainFormula

/-- a property is told from what follows -/
theorem separable_property : Separable (fun p : String × Expression => keySource p.1 ++ ':' :: ' ' :: p.2.source)
    (fun p => p.2.PlainFormula) EndsFormula := by
  rintro ⟨key, value⟩ ⟨key', value'⟩ r r' hp hp' hr hr' h
  simp only [List.append_assoc, List.cons_append] at h
  obtain ⟨rfl, hrest⟩ := separable_keySource trivial trivial ⟨_, rfl⟩ ⟨_, rfl⟩ h
  simp only [List.cons.injEq, true_and] at hrest
  obtain ⟨rfl, htail⟩ := separable_formula hp hp' hr hr' hrest
  exact ⟨rfl, htail⟩

theorem endsFormula_properties (ps : List (String × Expression)) (r : List Char) :
    EndsFormula (Expression.sourceProperties ps ++ ' ' :: '}' :: r) := by
  cases ps with
  | nil => exact .object r
  | cons p ps => exact .comma _

theorem sourceProperties_append (p : String × Expression) (ps : List (String × Expression)) (r : List Char) :
    Expression.sourceProperties (p :: ps) ++ r =
      ',' :: ' ' :: ((keySource p.1 ++ ':' :: ' ' :: p.2.source) ++ (Expression.sourceProperties ps ++ r)) := by
  simp

/-- properties are told from the end of their object -/
theorem properties_append_inj {ps ps' : List (String × Expression)} {r r' : List Char} (hps : PlainProperties ps)
    (hps' : PlainProperties ps')
    (h : Expression.sourceProperties ps ++ ' ' :: '}' :: r = Expression.sourceProperties ps' ++ ' ' :: '}' :: r') :
    ps = ps' ∧ r = r' := by
  induction ps generalizing ps' with
  | nil =>
    cases ps' with
    | nil =>
      simp only [List.append_cancel_left_eq, List.cons.injEq, true_and] at h
      exact ⟨rfl, h⟩
    | cons p' ps' =>
      rw [sourceProperties_append] at h
      cases h
  | cons p ps ih =>
    rw [sourceProperties_append] at h
    cases ps' with
    | nil => cases h
    | cons p' ps' =>
      rw [sourceProperties_append] at h
      simp only [List.cons.injEq, true_and] at h
      obtain ⟨hp, hmore⟩ := List.forall_mem_cons.1 hps
      obtain ⟨hp', hmore'⟩ := List.forall_mem_cons.1 hps'
      obtain ⟨rfl, hrest⟩ :=
        separable_property hp hp' (endsFormula_properties ps r) (endsFormula_properties ps' r') h
      obtain ⟨rfl, htail⟩ := ih hmore hmore' hrest
      exact ⟨rfl, htail⟩

theorem source_object_append (p : String × Expression) (ps : List (String × Expression)) (r : List Char) :
    (Expression.object (p :: ps)).source ++ r = '{' :: ' ' ::
      ((keySource p.1 ++ ':' :: ' ' :: p.2.source) ++ (Expression.sourceProperties ps ++ ' ' :: '}' :: r)) := by
  simp

/-- **Objects of formulas are told from what follows.** -/
theorem separable_object :
    Separable (fun ps : List (String × Expression) => (Expression.object ps).source) PlainProperties fun _ => True := by
  intro ps ps' r r' hps hps' _ _ h
  cases ps with
  | nil =>
    cases ps' with
    | nil => exact ⟨rfl, List.append_cancel_left h⟩
    | cons p' ps' =>
      simp only [source_object_append] at h
      cases h
  | cons p ps =>
    cases ps' with
    | nil =>
      simp only [source_object_append] at h
      cases h
    | cons p' ps' =>
      simp only [source_object_append, List.cons.injEq, true_and] at h
      obtain ⟨hp, hmore⟩ := List.forall_mem_cons.1 hps
      obtain ⟨hp', hmore'⟩ := List.forall_mem_cons.1 hps'
      obtain ⟨rfl, hrest⟩ :=
        separable_property hp hp' (endsFormula_properties ps r) (endsFormula_properties ps' r') h
      obtain ⟨rfl, htail⟩ := properties_append_inj hmore hmore' hrest
      exact ⟨rfl, htail⟩

end Flowchart
