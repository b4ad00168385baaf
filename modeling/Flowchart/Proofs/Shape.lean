/-
The shape of compiled trees.

A tree can hold any expression in any place, but few of these trees are compiled from a document. A formula reads as a
simple expression: operands with `+` and `===` between them, both grouped to the right and `===` inside `+` only. The
one expression of a statement is simple, or an assignment of simple expressions, or the data of a call whose parameters
are simple.

- `Formula.IsSum.isSimple`: what a formula reads as is simple.
- `Expression.filter_isCompound_of_isSimple`: a simple expression has no assignment, call or object inside it.
- `build_shape`: every statement of a compiled tree has one of five shapes (`Statement.Shaped`).
-/
import Flowchart.Proofs.FormulaShape
import Flowchart.Proofs.Origins
import Mathlib

namespace Flowchart

namespace Expression

/-- an operand without an operator: a variable, a property of a variable, or a scalar -/
def isAtom : Expression → Bool
  | .identifier _ => true
  | .member (.identifier _) _ => true
  | .literal value => value.isScalar
  | _ => false

/-- there is a `+` between operands of the expression -/
def hasAdd : Expression → Bool
  | .binary operator left right => operator = .add || hasAdd left || hasAdd right
  | _ => false

/-- Operands and operators only. The left operand of a `===` is an atom and its right operand has no `+`; the left
operand of a `+` has no `+`. -/
def isSimple : Expression → Bool
  | .binary .add left right => isSimple left && !hasAdd left && isSimple right
  | .binary .strictEqual left right => isAtom left && isSimple right && !hasAdd right
  | e => isAtom e

mutual

/-- The expression and all expressions inside it, depth first. What is called is left out unless `callees` is set. -/
def parts (callees : Bool) : Expression → List Expression
  | .identifier name => [.identifier name]
  | .literal value => [.literal value]
  | .member base property => .member base property :: parts callees base
  | .binary operator left right => .binary operator left right :: (parts callees left ++ parts callees right)
  | .assignment left right => .assignment left right :: (parts callees left ++ parts callees right)
  | .asyncCall callee arguments =>
    .asyncCall callee arguments :: ((if callees then parts callees callee else []) ++ partsAll callees arguments)
  | .object properties => .object properties :: partsProperties callees properties

/-- all expressions inside a list of expressions -/
def partsAll (callees : Bool) : List Expression → List Expression
  | [] => []
  | e :: rest => parts callees e ++ partsAll callees rest

/-- all expressions inside the properties of an object -/
def partsProperties (callees : Bool) : List (String × Expression) → List Expression
  | [] => []
  | (_, e) :: rest => parts callees e ++ partsProperties callees rest

end

theorem mem_partsProperties {callees : Bool} {properties : List (String × Expression)} {e : Expression} :
    e ∈ partsProperties callees properties ↔ ∃ x ∈ properties, e ∈ x.2.parts callees := by
  induction properties with
  | nil => simp [partsProperties]
  | cons x rest ih => simp [partsProperties, ih]

/-- the kinds of expressions that have no place inside a simple one -/
def isCompound (e : Expression) : Bool := e.kind = .assignment || e.kind = .asyncCall || e.kind = .object

theorem filter_isCompound_of_isAtom {e : Expression} (h : e.isAtom) : (e.parts true).filter isCompound = [] := by
  cases e with
  | identifier name => simp [parts, isCompound, kind]
  | literal value => simp [parts, isCompound, kind]
  | member base property =>
    cases base <;> simp_all [isAtom, parts, isCompound, kind]
  | _ => cases h

/-- **A simple expression has no assignment, call or object inside it.** -/
theorem filter_isCompound_of_isSimple {e : Expression} (h : e.isSimple) : (e.parts true).filter isCompound = [] := by
  induction e using isSimple.induct with
  | case1 left right ihl ihr =>
    simp only [isSimple, Bool.and_eq_true] at h
    simp [parts, isCompound, kind, ihl h.1.1, ihr h.2]
  | case2 left right ihr =>
    simp only [isSimple, Bool.and_eq_true] at h
    simp [parts, isCompound, kind, filter_isCompound_of_isAtom h.1.1, ihr h.1.2]
  | case3 e hadd hequal =>
    rw [isSimple] at h
    · exact filter_isCompound_of_isAtom h
    · exact hadd
    · exact hequal

end Expression

/-! ## Formulas -/

namespace Formula

variable {e : Expression}

theorem IsAtom.isAtom (h : IsAtom e) : e.isAtom := by
  cases h with
  | reference name => rfl
  | property object property => rfl
  | scalar value h => exact h

theorem IsAtom.isSimple (h : IsAtom e) : e.isSimple := by
  cases h with
  | reference name => rfl
  | property object property => rfl
  | scalar value h => exact h

theorem IsAtom.not_hasAdd (h : IsAtom e) : e.hasAdd = false := by
  cases h <;> rfl

theorem IsComparison.not_hasAdd (h : IsComparison e) : e.hasAdd = false := by
  induction h with
  | atom h => exact h.not_hasAdd
  | equal hl hr ih => simp [Expression.hasAdd, hl.not_hasAdd, ih]

theorem IsComparison.isSimple (h : IsComparison e) : e.isSimple := by
  induction h with
  | atom h => exact h.isSimple
  | equal hl hr ih => simp [Expression.isSimple, hl.isAtom, ih, hr.not_hasAdd]

/-- **What a formula reads as is simple.** -/
theorem IsSum.isSimple (h : IsSum e) : e.isSimple := by
  induction h with
  | comparison h => exact h.isSimple
  | add hl hr ih => simp [Expression.isSimple, hl.isSimple, hl.not_hasAdd, ih]

/-- the expression in a property value is a formula or a scalar -/
theorem isSum_of_ofJson {v : Json} (h : ofJson v = .ok e) : IsSum e := by
  cases v with
  | str s => exact (parse_shape h).1
  | num n =>
    cases h
    exact .comparison (.atom (.scalar _ rfl))
  | bool b =>
    cases h
    exact .comparison (.atom (.scalar _ rfl))
  | null =>
    cases h
    exact .comparison (.atom (.scalar _ rfl))
  | arr items => cases h
  | obj members => cases h

end Formula

namespace Node

variable {n : Node} {e : Expression}

theorem Expresses.isSum (h : n.Expresses e) : Formula.IsSum e := by
  obtain ⟨v, -, hv⟩ := h
  exact Formula.isSum_of_ofJson hv

theorem Targets.isSum (h : n.Targets e) : Formula.IsSum e := by
  rcases h with ⟨name, -, rfl⟩ | h
  · exact .comparison (.atom (.reference name))
  · exact h.isSum

end Node

/-! ## Statements -/

/-- the expressions that are not simple in the statements of a kind -/
def StatementKind.compounds : StatementKind → List ExpressionKind
  | .expression => [.assignment]
  | .declaration => [.asyncCall, .object]
  | _ => []

namespace Statement

/-- the expression of a statement, apart from what is inside its blocks -/
def content : Statement → Expression
  | .expression value => value
  | .declaration _ init => init
  | .conditional test _ _ => test
  | .forEach _ iterable _ => iterable
  | .ret argument => argument

/-- the shapes of compiled statements -/
def Shaped (client : String) : Statement → Prop := MadeOf client (fun e => e.isSimple) fun e => e.isSimple

variable {client : String} {s : Statement}

theorem shaped_of_gives {n : Node} (h : n.Gives client s) : s.Shaped client := by
  apply h.imp
  · intro e he
    exact he.isSum.isSimple
  · intro e he
    exact he.isSum.isSimple

theorem filter_isCompound_partsProperties {properties : List (String × Expression)}
    (h : ∀ x ∈ properties, x.2.isSimple) :
    (Expression.partsProperties true properties).filter Expression.isCompound = [] := by
  rw [List.filter_eq_nil_iff]
  intro e he
  obtain ⟨x, hx, he⟩ := Expression.mem_partsProperties.1 he
  exact List.filter_eq_nil_iff.1 (Expression.filter_isCompound_of_isSimple (h x hx)) e he

/-- what is not simple stands at the top of a statement only -/
theorem Shaped.compounds (h : s.Shaped client) :
    ((s.content.parts true).filter Expression.isCompound).map Expression.kind = s.kind.compounds := by
  cases h with
  | assignment hl hr =>
    simp [content, Expression.parts, Expression.isCompound, Expression.kind, StatementKind.compounds,
      Expression.filter_isCompound_of_isSimple hl, Expression.filter_isCompound_of_isSimple hr, Statement.kind]
  | call hname hmethod url hproperties =>
    simp [content, Expression.parts, Expression.partsAll, Expression.isCompound, Expression.kind,
      StatementKind.compounds, filter_isCompound_partsProperties hproperties, Statement.kind]
  | conditional h _ _ =>
    simp [content, Expression.filter_isCompound_of_isSimple h, StatementKind.compounds, Statement.kind]
  | loop _ h _ =>
    simp [content, Expression.filter_isCompound_of_isSimple h, StatementKind.compounds, Statement.kind]
  | output h => simp [content, Expression.filter_isCompound_of_isSimple h, StatementKind.compounds, Statement.kind]

end Statement

/-- **The shape of compiled trees.** Every statement of a tree, at any depth and for either placement, has one of five
shapes, made of simple expressions and of names. An assignment is the whole of an expression statement, a call and its
object of parameters are at their place in a declaration, and there are no others. -/
theorem build_shape {d : Document} {o : Options} {p : Program} (h : (d.build o).outcome = .ok p) :
    ∀ s ∈ p.walk, s.Shaped o.httpClient ∧
      ((s.content.parts true).filter Expression.isCompound).map Expression.kind = s.kind.compounds := by
  intro s hs
  obtain ⟨n, -, hn⟩ := d.gives_of_build h s hs
  have hshaped := Statement.shaped_of_gives hn
  exact ⟨hshaped, hshaped.compounds⟩

/-- a flow with a call and, in a loop, a conditional -/
def orderFlow : Document where
  nodes := [⟨"s", .start, [], []⟩,
    ⟨"h", .httpCall, [("params", .arr [.arr [.str "full name", .str "$a === $k + $b/c"]]), ("saveAs", .str "$res"),
      ("url", .obj [("path", .arr [])])], []⟩,
    ⟨"l", .loop, [("currentItem", .str "it"), ("loopArray", .str "$res/items")], ["c"]⟩,
    ⟨"c", .conditional, [("expression", .str "$it")], []⟩]
  edges := [⟨"s", "h", none⟩, ⟨"h", "l", none⟩]

/-- the call of `orderFlow`, by this client -/
def orderCall (client : String) : Statement :=
  .declaration "res" (.member (.asyncCall (.member (.identifier client) "get") [.literal (.obj [("path", .arr [])]),
    .object [("full name", .binary .add (.binary .strictEqual (.identifier "a") (.identifier "k"))
      (.member (.identifier "b") "c"))]]) "data")

/-- the tree of `orderFlow` with hoisted conditionals -/
def orderTree (client : String) : Program :=
  ⟨[orderCall client, .forEach "it" (.member (.identifier "res") "items") [],
    .conditional (.identifier "it") [] []]⟩

theorem build_orderFlow :
    (orderFlow.build { httpClient := "http", placement := .hoisted }).outcome = .ok (orderTree "http") := by cbv

theorem build_shape_orderFlow :
    (orderFlow.build { httpClient := "http", placement := .hoisted }).outcome = .ok (orderTree "http") ∧
      orderCall "http" ∈ (orderTree "http").walk ∧ (orderCall "http").Shaped "http" :=
  have hmem : orderCall "http" ∈ (orderTree "http").walk := List.mem_cons_self
  ⟨build_orderFlow, hmem, (build_shape build_orderFlow _ hmem).1⟩

end Flowchart
