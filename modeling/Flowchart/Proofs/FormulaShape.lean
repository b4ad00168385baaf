/-
The shape of what a formula reads as.

A formula is cut at its first `+`, and if it has none at its first `===`. So the left side of a cut does not hold the
mark again, and a formula without `+` has no side with one. What comes out is built in three layers: sums of
comparisons of atoms, and in both the left operand belongs to the layer below.

- `Text.cut?_eq_none`, `Text.cut?_left`: a cut is at the first place where the mark stands.
- `Formula.read_operation`: where one look at a text cuts it.
- `Formula.parse_shape`: what a formula reads as is a sum, without `+` a comparison, and without any operator an atom.
-/
import Flowchart.Formula
import Flowchart.Proofs.Outcome

namespace Flowchart

namespace Text

variable {mark s left right : List Char}

theorem after?_isSome : (after? mark s).isSome ↔ mark <+: s := by
  constructor
  · intro h
    obtain ⟨rest, hrest⟩ := Option.isSome_iff_exists.1 h
    exact ⟨rest, (after?_eq_some hrest).symm⟩
  · rintro ⟨rest, rfl⟩
    rw [after?_append]
    rfl

/-- there is no cut where the mark does not stand -/
theorem cut?_eq_none (hm : mark ≠ []) : cut? mark s = none ↔ ¬mark <:+: s := by
  induction s with
  | nil => simp [cut?, hm]
  | cons c s ih =>
    rw [List.infix_cons_iff, not_or, ← ih, ← after?_isSome, cut?]
    cases after? mark (c :: s) <;> simp

/-- a cut is at the first place: its left side does not hold the mark -/
theorem cut?_left (hm : mark ≠ []) (h : cut? mark s = some (left, right)) : ¬mark <:+: left := by
  rw [← cut?_eq_none hm]
  induction s generalizing left with
  | nil => simp [cut?] at h
  | cons c s ih =>
    rw [cut?] at h
    split at h
    · cases h
      rfl
    · rename_i hafter
      obtain ⟨sides, hsides, heq⟩ := Option.map_eq_some_iff.1 h
      cases heq
      have hnone : after? mark (c :: sides.1) = none := by
        rw [← Option.not_isSome_iff_eq_none, after?_isSome] at hafter ⊢
        intro hprefix
        have hs : c :: s = c :: sides.1 ++ (mark ++ sides.2) := by rw [cut?_eq_some hsides, List.cons_append]
        exact hafter (hs ▸ hprefix.trans (List.prefix_append _ _))
      rw [cut?, hnone, ih hsides]
      rfl

theorem trim_infix (s : List Char) : trim s <:+: s := by
  have hend : trimEnd (trimStart s) <+: trimStart s := by
    unfold trimEnd
    rw [← List.reverse_suffix, List.reverse_reverse]
    exact List.dropWhile_suffix _
  exact hend.isInfix.trans (List.dropWhile_suffix _).isInfix

end Text

/-- the value is neither an array nor an object -/
def Json.isScalar : Json → Bool
  | .arr _ => false
  | .obj _ => false
  | _ => true

namespace Formula

/-- an operand without an operator: a variable, a property of a variable, or a scalar -/
inductive IsAtom : Expression → Prop
  | reference (name : String) : IsAtom (.identifier name)
  | property (object property : String) : IsAtom (.member (.identifier object) property)
  | scalar (value : Json) (h : value.isScalar) : IsAtom (.literal value)

/-- atoms with `===` between them, grouped to the right -/
inductive IsComparison : Expression → Prop
  | atom {e : Expression} (h : IsAtom e) : IsComparison e
  | equal {l r : Expression} (hl : IsAtom l) (hr : IsComparison r) : IsComparison (.binary .strictEqual l r)

/-- comparisons with `+` between them, grouped to the right -/
inductive IsSum : Expression → Prop
  | comparison {e : Expression} (h : IsComparison e) : IsSum e
  | add {l r : Expression} (hl : IsComparison l) (hr : IsSum r) : IsSum (.binary .add l r)

theorem isAtom_of_reference {s : List Char} {e : Expression} (h : reference s = .atom e) : IsAtom e := by
  unfold reference at h
  repeat' split at h
  all_goals cases h
  · exact .reference _
  · exact .property _ _

theorem isAtom_constant (s : List Char) : IsAtom (constant s) := by
  unfold constant
  split
  · exact .scalar _ rfl
  · exact .scalar _ rfl

/-- a text without operators -/
theorem isAtom_of_read {s : List Char} {e : Expression} (h : read s = .atom e) : IsAtom e := by
  unfold read at h
  split at h
  · unfold operation at h
    split at h <;> cases h
  · split at h
    · unfold operation at h
      split at h <;> cases h
    · split at h
      · exact isAtom_of_reference h
      · cases h
        exact isAtom_constant _

/-- **One look.** A text with an operator is cut at its first `+`, or without one at its first `===`. -/
theorem read_operation {s l r : List Char} {op : Operator} (h : read s = .operation op l r) :
    ∃ left right, l = Text.trim left ∧ r = Text.trim right ∧
      (op = .add ∧ Text.cut? ['+'] s = some (left, right) ∨
        op = .strictEqual ∧ Text.cut? ['+'] s = none ∧ Text.cut? ['=', '=', '='] s = some (left, right)) := by
  unfold read at h
  split at h
  · rename_i left right hadd
    obtain ⟨rfl, hl, hr⟩ := operation_eq h
    exact ⟨left, right, hl, hr, Or.inl ⟨rfl, hadd⟩⟩
  · rename_i hadd
    split at h
    · rename_i left right hequal
      obtain ⟨rfl, hl, hr⟩ := operation_eq h
      exact ⟨left, right, hl, hr, Or.inr ⟨rfl, hadd, hequal⟩⟩
    · split at h
      · exact absurd h reference_ne_operation
      · cases h

/-- an expression is an atom or an operation on the expressions of its two sides -/
theorem parse_eq_ok {s : List Char} {e : Expression} :
    parse s = .ok e ↔ read s = .atom e ∨
      ∃ op l r el er, read s = .operation op l r ∧ parse l = .ok el ∧ parse r = .ok er ∧ e = .binary op el er := by
  rw [parse]
  split
  · rename_i hread
    simp [hread]
  · rename_i hread
    simp [hread]
  · rename_i op l r hread
    simp only [hread, bind_eq_ok, reduceCtorEq, false_or, Reading.operation.injEq]
    constructor
    · rintro ⟨el, hl, er, hr, he⟩
      exact ⟨op, l, r, el, er, ⟨rfl, rfl, rfl⟩, hl, hr, pure_eq_ok.1 he⟩
    · rintro ⟨_, _, _, el, er, ⟨rfl, rfl, rfl⟩, hl, hr, he⟩
      exact ⟨el, hl, er, hr, pure_eq_ok.2 he⟩

/-- Induction over a text that is an expression: a statement about an operation may use those about its sides. -/
theorem parse_induction {motive : List Char → Expression → Prop} (atom : ∀ s e, read s = .atom e → motive s e)
    (operation : ∀ s op l r el er, read s = .operation op l r → motive l el → motive r er →
      motive s (.binary op el er)) {s : List Char} {e : Expression} (h : parse s = .ok e) : motive s e := by
  rcases parse_eq_ok.1 h with hread | ⟨op, l, r, el, er, hread, hl, hr, rfl⟩
  · exact atom s e hread
  · have hlength := length_read hread
    exact operation s op l r el er hread (parse_induction atom operation hl) (parse_induction atom operation hr)
termination_by s.length
decreasing_by all_goals omega

/-- **The shape of a formula.** It reads as a sum, without `+` as a comparison, and without any operator as an atom. -/
theorem parse_shape {s : List Char} {e : Expression} (h : parse s = .ok e) :
    IsSum e ∧ (¬['+'] <:+: s → IsComparison e ∧ (¬['=', '=', '='] <:+: s → IsAtom e)) := by
  refine parse_induction (motive := fun s e =>
    IsSum e ∧ (¬['+'] <:+: s → IsComparison e ∧ (¬['=', '=', '='] <:+: s → IsAtom e))) ?_ ?_ h
  · intro s e hread
    have hatom := isAtom_of_read hread
    exact ⟨.comparison (.atom hatom), fun _ => ⟨.atom hatom, fun _ => hatom⟩⟩
  · intro s op l r el er hread ihl ihr
    obtain ⟨left, right, rfl, rfl, hcut⟩ := read_operation hread
    rcases hcut with ⟨rfl, hadd⟩ | ⟨rfl, hadd, hequal⟩
    · -- the left side has no `+`
      have hleft : ¬['+'] <:+: Text.trim left := fun hin =>
        Text.cut?_left (by simp) hadd (hin.trans (Text.trim_infix left))
      have hs : ['+'] <:+: s := ⟨left, right, by rw [Text.cut?_eq_some hadd, List.append_assoc]⟩
      exact ⟨.add (ihl.2 hleft).1 ihr.1, fun hno => absurd hs hno⟩
    · -- neither side has a `+`, and the left side no `===`
      have hno : ¬['+'] <:+: s := (Text.cut?_eq_none (by simp)).1 hadd
      have hsplit := Text.cut?_eq_some hequal
      have hl : left <:+: s := ⟨[], ['=', '=', '='] ++ right, by rw [hsplit, List.nil_append]⟩
      have hr : right <:+: s := ⟨left ++ ['=', '=', '='], [], by rw [hsplit, List.append_nil, List.append_assoc]⟩
      have hleft := ihl.2 fun hin => hno (hin.trans ((Text.trim_infix left).trans hl))
      have hright := ihr.2 fun hin => hno (hin.trans ((Text.trim_infix right).trans hr))
      have hatom := hleft.2 fun hin => Text.cut?_left (by simp) hequal (hin.trans (Text.trim_infix left))
      have hs : ['=', '=', '='] <:+: s := ⟨left, right, by rw [hsplit, List.append_assoc]⟩
      have hcomparison := IsComparison.equal hatom hright.1
      exact ⟨.comparison hcomparison, fun _ => ⟨hcomparison, fun hnot => absurd hs hnot⟩⟩

end Formula

end Flowchart
