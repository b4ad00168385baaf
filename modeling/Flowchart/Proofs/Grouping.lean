/-
Which groupings survive in the source text.

Source text has no parentheses around operations. It shows the operands of an expression and the operators between them
in order (`Chain`), and who reads it groups them anew: `+` binds tighter than `===`, and both group to the left.

- `regroup_chain`: an expression is regrouped as it was exactly when it is grouped by these rules (`IsEquality`).
- `IsSum.source_eq`: the source text of a formula is its chain, word by word.
- `source_grouping`: formulas group to the right and `+` before `===`, so that only those with at most one operator keep
  their grouping.
-/
import Flowchart.Proofs.FormulaShape
import Flowchart.Tree.Source
import Mathlib

namespace Flowchart

/-- operands with operators between them -/
structure Chain where
  first : Expression
  /-- the further operands, each with the operator before it -/
  rest : List (Operator × Expression)

namespace Expression

/-- the expression is an operation -/
def isBinary : Expression → Bool
  | .binary _ _ _ => true
  | _ => false

/-- the operands and operators of an expression in order -/
def chain : Expression → Chain
  | .binary operator left right =>
    ⟨left.chain.first, left.chain.rest ++ (operator, right.chain.first) :: right.chain.rest⟩
  | e => ⟨e, []⟩

mutual

/-- the number of operations in an expression -/
def binaries : Expression → Nat
  | .identifier _ => 0
  | .literal _ => 0
  | .member base _ => binaries base
  | .binary _ left right => binaries left + 1 + binaries right
  | .assignment left right => binaries left + binaries right
  | .asyncCall callee arguments => binaries callee + binariesAll arguments
  | .object properties => binariesProperties properties

/-- the number of operations in a list of expressions -/
def binariesAll : List Expression → Nat
  | [] => 0
  | e :: rest => binaries e + binariesAll rest

/-- the number of operations in the properties of an object -/
def binariesProperties : List (String × Expression) → Nat
  | [] => 0
  | (_, e) :: rest => binaries e + binariesProperties rest

end

end Expression

namespace Chain

/-! ## Regrouping -/

/-- How far a chain is grouped: the comparison so far, if there was a `===`, and the sum that is being read. -/
structure Grouping where
  before : Option Expression
  sum : Expression

/-- the whole: the sum is the right side of the comparison -/
def Grouping.close (g : Grouping) : Expression :=
  match g.before with
  | none => g.sum
  | some left => .binary .strictEqual left g.sum

/-- One more operand. A `+` adds it to the sum, and a `===` closes what there is and starts the next sum. -/
def Grouping.step (g : Grouping) : Operator × Expression → Grouping
  | (.add, operand) => { g with sum := .binary .add g.sum operand }
  | (.strictEqual, operand) => ⟨some g.close, operand⟩

/-- the chain grouped by precedence: `+` binds tighter than `===`, and both group to the left -/
def regroup (c : Chain) : Expression := (c.rest.foldl Grouping.step ⟨none, c.first⟩).close

end Chain

namespace Expression

/-- operands with `+` between them, grouped to the left -/
inductive IsLeftSum : Expression → Prop
  | operand {e : Expression} (h : ¬e.isBinary) : IsLeftSum e
  | add {l r : Expression} (hl : IsLeftSum l) (hr : ¬r.isBinary) : IsLeftSum (.binary .add l r)

/-- sums with `===` between them, grouped to the left -/
inductive IsEquality : Expression → Prop
  | sum {e : Expression} (h : IsLeftSum e) : IsEquality e
  | equal {l r : Expression} (hl : IsEquality l) (hr : IsLeftSum r) : IsEquality (.binary .strictEqual l r)

theorem chain_of_not_isBinary {e : Expression} (h : ¬e.isBinary) : e.chain = ⟨e, []⟩ := by
  cases e <;> simp_all [chain, isBinary]

/-- a sum is read as it was, after whatever comparison -/
theorem IsLeftSum.foldl_chain {e : Expression} (h : IsLeftSum e) (before : Option Expression) :
    e.chain.rest.foldl Chain.Grouping.step ⟨before, e.chain.first⟩ = ⟨before, e⟩ := by
  induction h with
  | operand h => rw [chain_of_not_isBinary h, List.foldl_nil]
  | add hl hr ih =>
    rw [chain, List.foldl_append, ih, chain_of_not_isBinary hr]
    rfl

theorem IsEquality.regroup_chain {e : Expression} (h : IsEquality e) : e.chain.regroup = e := by
  unfold Chain.regroup
  induction h with
  | sum h =>
    rw [h.foldl_chain]
    rfl
  | equal hl hr ih =>
    rw [chain, List.foldl_append, List.foldl_cons, Chain.Grouping.step, ih, hr.foldl_chain]
    rfl

end Expression

namespace Chain

open Expression

/-- what was read so far is grouped by precedence -/
structure Grouping.Grouped (g : Grouping) : Prop where
  before : ∀ left ∈ g.before, IsEquality left
  sum : IsLeftSum g.sum

theorem Grouping.Grouped.close {g : Grouping} (h : g.Grouped) : IsEquality g.close := by
  obtain ⟨before, sum⟩ := g
  cases before with
  | none => exact .sum h.sum
  | some left => exact .equal (h.before left rfl) h.sum

theorem Grouping.Grouped.step {g : Grouping} (h : g.Grouped) {x : Operator × Expression} (hx : ¬x.2.isBinary) :
    (g.step x).Grouped := by
  obtain ⟨operator, operand⟩ := x
  cases operator with
  | add => exact ⟨h.before, .add h.sum hx⟩
  | strictEqual =>
    refine ⟨?_, .operand hx⟩
    rintro left ⟨⟩
    exact h.close

theorem Grouping.Grouped.foldl {g : Grouping} (h : g.Grouped) {rest : List (Operator × Expression)}
    (hrest : ∀ x ∈ rest, ¬x.2.isBinary) : (rest.foldl Grouping.step g).Grouped := by
  induction rest generalizing g with
  | nil => exact h
  | cons x rest ih =>
    rw [List.foldl_cons]
    exact ih (h.step (hrest x List.mem_cons_self)) fun y hy => hrest y (List.mem_cons_of_mem x hy)

/-- no operand is an operation itself -/
structure Flat (c : Chain) : Prop where
  first : ¬c.first.isBinary
  rest : ∀ x ∈ c.rest, ¬x.2.isBinary

theorem flat_chain (e : Expression) : e.chain.Flat := by
  induction e using Expression.chain.induct with
  | case1 operator left right ihl ihr =>
    rw [chain]
    refine ⟨ihl.first, fun x hx => ?_⟩
    rcases List.mem_append.1 hx with hx | hx
    · exact ihl.rest x hx
    rcases List.mem_cons.1 hx with rfl | hx
    · exact ihr.first
    · exact ihr.rest x hx
  | case2 e h =>
    have he : ¬e.isBinary := by
      cases e <;> simp_all [isBinary]
    rw [chain_of_not_isBinary he]
    exact ⟨he, nofun⟩

theorem Flat.isEquality_regroup {c : Chain} (h : c.Flat) : IsEquality c.regroup := by
  have hstart : Grouping.Grouped ⟨none, c.first⟩ := ⟨by simp, .operand h.first⟩
  exact (hstart.foldl h.rest).close

end Chain

/-- **Regrouping.** An expression keeps its grouping exactly when it is grouped by precedence. -/
theorem Expression.regroup_chain {e : Expression} : e.chain.regroup = e ↔ e.IsEquality := by
  constructor
  · intro h
    rw [← h]
    exact (Chain.flat_chain e).isEquality_regroup
  · exact fun h => h.regroup_chain

/-! ## The text of a chain -/

/-- The text of an operand: a name, a name with a property, or a literal. There are no others in a formula. -/
def Expression.operandText : Expression → List Char
  | .identifier name => name.toList
  | .member (.identifier base) property => base.toList ++ '.' :: property.toList
  | .literal value => value.compact
  | _ => []

/-- the texts of operands and operators in order -/
def Chain.words (c : Chain) : List (List Char) :=
  c.first.operandText :: c.rest.flatMap fun x => [x.1.symbol.toList, x.2.operandText]

namespace Formula

open Expression

theorem words_chain_binary (operator : Operator) (left right : Expression) :
    (binary operator left right).chain.words =
      left.chain.words ++ operator.symbol.toList :: right.chain.words := by
  rw [chain, Chain.words, Chain.words, Chain.words]
  simp

theorem intercalate_append {α : Type} (sep : List α) {xs ys : List (List α)} (hxs : xs ≠ []) (hys : ys ≠ []) :
    sep.intercalate (xs ++ ys) = sep.intercalate xs ++ sep ++ sep.intercalate ys := by
  induction xs with
  | nil => exact absurd rfl hxs
  | cons x xs ih =>
    cases xs with
    | nil => rw [List.singleton_append, List.intercalate_cons_of_ne_nil hys, List.intercalate_singleton]
    | cons x' xs =>
      have h := ih (List.cons_ne_nil x' xs)
      rw [List.cons_append, List.intercalate_cons_of_ne_nil (by simp), h, List.intercalate_cons_cons]
      simp only [List.append_assoc]

theorem words_ne_nil (c : Chain) : c.words ≠ [] := List.cons_ne_nil _ _

theorem source_operation {operator : Operator} {left right : Expression}
    (hl : left.source = [' '].intercalate left.chain.words) (hr : right.source = [' '].intercalate right.chain.words) :
    (binary operator left right).source = [' '].intercalate (binary operator left right).chain.words := by
  rw [words_chain_binary, intercalate_append [' '] (words_ne_nil _) (List.cons_ne_nil _ _),
    List.intercalate_cons_of_ne_nil (words_ne_nil _), ← hl, ← hr, source_binary]
  simp

variable {e : Expression}

theorem IsAtom.not_isBinary (h : IsAtom e) : ¬e.isBinary := by
  cases h <;> simp [isBinary]

theorem IsAtom.chain_eq (h : IsAtom e) : e.chain = ⟨e, []⟩ := chain_of_not_isBinary h.not_isBinary

theorem IsAtom.source_eq (h : IsAtom e) : e.source = [' '].intercalate e.chain.words := by
  rw [h.chain_eq]
  cases h <;> simp [Chain.words, operandText, isGrouped]

theorem IsComparison.source_eq (h : IsComparison e) : e.source = [' '].intercalate e.chain.words := by
  induction h with
  | atom h => exact h.source_eq
  | equal hl _ ih => exact source_operation hl.source_eq ih

/-- the source text of a sum is its chain, word by word -/
theorem IsSum.source_eq (h : IsSum e) : e.source = [' '].intercalate e.chain.words := by
  induction h with
  | comparison h => exact h.source_eq
  | add hl _ ih => exact source_operation hl.source_eq ih

/-! ## Sums that keep their grouping -/

theorem IsAtom.binaries_eq (h : IsAtom e) : e.binaries = 0 := by
  cases h <;> simp [binaries]

theorem length_chain_binary {operator : Operator} {left right : Expression}
    (hl : left.chain.rest.length = left.binaries) (hr : right.chain.rest.length = right.binaries) :
    (binary operator left right).chain.rest.length = (binary operator left right).binaries := by
  rw [chain, binaries, ← hl, ← hr, List.length_append, List.length_cons]
  omega

theorem IsAtom.length_chain (h : IsAtom e) : e.chain.rest.length = e.binaries := by
  rw [h.chain_eq, h.binaries_eq, List.length_nil]

theorem IsComparison.length_chain (h : IsComparison e) : e.chain.rest.length = e.binaries := by
  induction h with
  | atom h => exact h.length_chain
  | equal hl _ ih => exact length_chain_binary hl.length_chain ih

theorem IsSum.length_chain (h : IsSum e) : e.chain.rest.length = e.binaries := by
  induction h with
  | comparison h => exact h.length_chain
  | add hl _ ih => exact length_chain_binary hl.length_chain ih

/-- a comparison that groups like a sum has no operator -/
theorem IsComparison.isAtom_of_isLeftSum (h : IsComparison e) (hs : IsLeftSum e) : IsAtom e := by
  cases h with
  | atom h => exact h
  | equal hl hr =>
    cases hs with
    | operand hb => exact absurd rfl hb

theorem IsSum.isAtom_of_not_isBinary (h : IsSum e) (hb : ¬e.isBinary) : IsAtom e := by
  cases h with
  | comparison h => exact h.isAtom_of_isLeftSum (.operand hb)
  | add hl hr => exact absurd rfl hb

theorem IsComparison.binaries_le_one (h : IsComparison e) (he : IsEquality e) : e.binaries ≤ 1 := by
  cases h with
  | atom h => simp [h.binaries_eq]
  | equal hl hr =>
    cases he with
    | sum hs => cases hs with
      | operand hb => exact absurd rfl hb
    | equal _ hs => simp [binaries, hl.binaries_eq, (hr.isAtom_of_isLeftSum hs).binaries_eq]

theorem IsSum.binaries_le_one (h : IsSum e) (he : IsEquality e) : e.binaries ≤ 1 := by
  cases h with
  | comparison h => exact h.binaries_le_one he
  | add hl hr =>
    cases he with
    | sum hs => cases hs with
      | operand hb => exact absurd rfl hb
      | add hs hb =>
        simp [binaries, (hl.isAtom_of_isLeftSum hs).binaries_eq, (hr.isAtom_of_not_isBinary hb).binaries_eq]

theorem not_isBinary_of_binaries_eq_zero (h : e.binaries = 0) : ¬e.isBinary := by
  cases e <;> simp_all [binaries, isBinary]

/-- one operator alone is grouped by precedence -/
theorem isEquality_of_binaries_le_one (h : e.binaries ≤ 1) : IsEquality e := by
  by_cases hb : e.isBinary
  · cases e with
    | binary operator left right =>
      rw [binaries] at h
      have hl : ¬left.isBinary := not_isBinary_of_binaries_eq_zero (by omega)
      have hr : ¬right.isBinary := not_isBinary_of_binaries_eq_zero (by omega)
      cases operator with
      | add => exact .sum (.add (.operand hl) hr)
      | strictEqual => exact .equal (.sum (.operand hl)) (.operand hr)
    | _ => cases hb
  · exact .sum (.operand hb)

end Formula

/-- **Which groupings survive.** The source text of a formula is its operands and operators in order, with a blank
between them and no parentheses. It has as many operators as the expression has operations. Read by precedence, it is
grouped as the expression was exactly when there is at most one. -/
theorem source_grouping {s : List Char} {e : Expression} (h : Formula.parse s = .ok e) :
    e.source = [' '].intercalate e.chain.words ∧ e.chain.rest.length = e.binaries ∧
      (e.chain.regroup = e ↔ e.binaries ≤ 1) := by
  have hsum := (Formula.parse_shape h).1
  refine ⟨hsum.source_eq, hsum.length_chain, ?_⟩
  rw [Expression.regroup_chain]
  exact ⟨hsum.binaries_le_one, Formula.isEquality_of_binaries_le_one⟩

namespace Formula

/-- a comparison as the second addend -/
def addedComparison : Expression :=
  .binary .add (.identifier "n") (.binary .strictEqual (.identifier "a") (.identifier "b"))

theorem parse_addedComparison : parse "$n + $a === $b".toList = .ok addedComparison := by
  cbv

end Formula

/-- `+` is split off first, but in the text it binds tighter: the sum becomes the left side of the comparison -/
theorem source_grouping_addedComparison :
    Formula.addedComparison.source = "n + a === b".toList ∧
      Formula.addedComparison.chain.regroup ≠ Formula.addedComparison := by
  obtain ⟨hsource, -, hgroup⟩ := source_grouping Formula.parse_addedComparison
  refine ⟨hsource.trans (by cbv), fun h => ?_⟩
  have hone := hgroup.1 h
  simp [Formula.addedComparison, Expression.binaries] at hone

end Flowchart
