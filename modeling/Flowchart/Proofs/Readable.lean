/-
Well-formed properties.

Each kind of node has its properties read in a fixed order. Here is which properties can be read, without the order:
`readable` says of a node that its properties for its kind are there and well formed. The output of an end is apart
(`hasExpression "output"`), since only the first end of a flow is read.

- `isOk_assignment`, `isOk_expression`, `isOk_httpCall`, `isOk_loopHead`: a reading succeeds exactly on well-formed
  properties.
-/
import Flowchart.Proofs.Outcome
import Flowchart.Lowering

namespace Flowchart

@[simp] theorem isOk_ok {ε α : Type} (a : α) : (.ok a : Except ε α).isOk = true := rfl

@[simp] theorem isOk_pure {ε α : Type} (a : α) : (pure a : Except ε α).isOk = true := rfl

@[simp] theorem isOk_error {ε α : Type} (e : ε) : (.error e : Except ε α).isOk = false := rfl

theorem isOk_iff {ε α : Type} {x : Except ε α} : x.isOk = true ↔ ∃ a, x = .ok a := by
  cases x <;> simp

/-- two steps, of which the second succeeds or not whatever the first gives -/
theorem isOk_bind {ε α β : Type} {x : Except ε α} {f : α → Except ε β} {b : Bool}
    (h : ∀ a, x = .ok a → (f a).isOk = b) : (x >>= f).isOk = (x.isOk && b) := by
  cases x with
  | error e => rfl
  | ok a => exact (h a rfl).trans (Bool.true_and b).symm

@[simp] theorem isOk_mapError {ε ε' α : Type} (x : Except ε α) (f : ε → ε') : (x.mapError f).isOk = x.isOk := by
  cases x <;> rfl

@[simp] theorem isOk_map {ε α β : Type} (x : Except ε α) (f : α → β) : (f <$> x).isOk = x.isOk := by
  cases x <;> rfl

namespace Node

/-- the property is there and can be assigned to -/
def hasTarget (n : Node) (name : String) : Bool := (n.property? [name]).any fun v => (Formula.target v).isOk

/-- the property is there and holds an expression -/
def hasExpression (n : Node) (name : String) : Bool := (n.property? [name]).any fun v => (Formula.ofJson v).isOk

/-- the first of these properties that is there names a variable -/
def hasVariable (n : Node) (names : List String) : Bool :=
  (n.property? names).any fun v => (Formula.boundName? v).isSome

/-- the method of a call is a name or null -/
def isMethod : Json → Bool
  | .null => true
  | .str s => Text.isName (Text.trim s.toList)
  | _ => false

/-- the parameters of a call are a list of keys with expressions, or null -/
def areParameters : Json → Bool
  | .null => true
  | .arr items => items.all fun item => (parameter? item).any fun p => (Formula.ofJson p.2).isOk
  | _ => false

/-- the properties that the node needs for its kind are there and well formed; the output of an end is apart -/
def readable (n : Node) : Bool :=
  match n.kind with
  | .start => true
  | .setVariable => n.hasTarget "key" && n.hasExpression "value"
  | .conditional => n.hasExpression "expression"
  | .httpCall =>
    (n.property? ["url"]).isSome && (n.property? ["method"]).all isMethod &&
      (n.property? ["params"]).all areParameters && n.hasVariable ["saveAs", "saveResponseAsVariableName"]
  | .loop => n.hasExpression "loopArray" && n.hasVariable ["currentItemName", "currentItem"]
  | .finish => true

variable (n : Node)

/-! ## One property -/

theorem required_eq_ok {name : String} {others : List String} {v : Json} :
    n.required name others = .ok v ↔ n.property? (name :: others) = some v := by
  unfold required
  split
  · rename_i w hw
    simp [hw]
  · rename_i hw
    simp [hw]

/-- a required property and a reading of it -/
theorem isOk_required_bind {β : Type} (name : String) (others : List String) (f : Json → Except Error β) :
    (n.required name others >>= f).isOk = (n.property? (name :: others)).any fun v => (f v).isOk := by
  unfold required
  cases n.property? (name :: others) <;> rfl

theorem expression_eq_ok {name : String} {a : Expression} :
    (n.expression name).outcome = .ok a ↔ ∃ v, n.property? [name] = some v ∧ Formula.ofJson v = .ok a := by
  simp only [expression, parsed, Logged.outcome_bind, Logged.outcome_lift, Logged.outcome_log, ok_bind, bind_eq_ok,
    required_eq_ok, mapError_eq_ok]

theorem isOk_expression (name : String) : (n.expression name).outcome.isOk = n.hasExpression name := by
  simp only [expression, Logged.outcome_bind, Logged.outcome_lift, isOk_required_bind, hasExpression]
  congr 1
  funext v
  simp [parsed]

theorem isOk_variableName (name : String) (others : List String) :
    (n.variableName name others).isOk = n.hasVariable (name :: others) := by
  simp only [variableName, isOk_required_bind, hasVariable]
  congr 1
  funext v
  cases Formula.boundName? v <;> rfl

theorem isOk_method : n.method.isOk = (n.property? ["method"]).all isMethod := by
  unfold method
  split
  · rename_i h
    simp [h]
  · rename_i h
    simp [h, isMethod]
  · rename_i s h
    by_cases hs : Text.isName (Text.trim s.toList) <;> simp [h, hs, isMethod]
  · rename_i v h1 h2 h
    rw [h]
    cases v <;> simp_all [isMethod]

/-! ## The properties of a node -/

theorem isOk_assignment : n.assignment.outcome.isOk = (n.hasTarget "key" && n.hasExpression "value") := by
  have hvalue : ∀ key, (((Formula.target key).mapError (n.refuse "key") : Except Error Expression) >>= fun left =>
      (n.expression "value").outcome >>= fun right => pure (.expression (.assignment left right) : Statement)).isOk =
        ((Formula.target key).isOk && n.hasExpression "value") := by
    intro key
    rw [isOk_bind (b := n.hasExpression "value"), isOk_mapError]
    intro left _
    simp [isOk_expression]
  simp only [assignment, Logged.outcome_bind, Logged.outcome_lift, isOk_required_bind, hasTarget, parsed,
    Logged.outcome_log, ok_bind, Logged.outcome_pure]
  cases h : n.property? ["key"] with
  | none => rfl
  | some key => exact hvalue key

theorem isOk_loopHead :
    n.loopHead.outcome.isOk = (n.hasExpression "loopArray" && n.hasVariable ["currentItemName", "currentItem"]) := by
  simp only [loopHead, Logged.outcome_bind, Logged.outcome_lift, Logged.outcome_pure]
  rw [isOk_bind (b := n.hasVariable ["currentItemName", "currentItem"]), isOk_expression]
  intro iterable _
  exact (isOk_map (n.variableName _ _) fun item => (iterable, item)).trans (n.isOk_variableName _ _)

/-- reading all elements of a list, and then testing all of them -/
theorem any_mapM_all {α β : Type} (f : α → Option β) (g : β → Bool) (xs : List α) :
    (xs.mapM f).any (·.all g) = xs.all fun x => (f x).any g := by
  induction xs with
  | nil => rfl
  | cons x xs ih =>
    rw [List.mapM_cons, List.all_cons, ← ih]
    cases f x with
    | none => rfl
    | some y => cases xs.mapM f <;> simp

theorem isOk_mapM_argument (ps : List (String × Json)) :
    (ps.mapM n.argument).outcome.isOk = ps.all fun p => (Formula.ofJson p.2).isOk := by
  induction ps with
  | nil => rfl
  | cons p ps ih =>
    rw [List.mapM_cons, List.all_cons, ← ih]
    simp only [argument, parsed, Logged.outcome_bind, Logged.outcome_log, Logged.outcome_lift, Logged.outcome_pure,
      ok_bind]
    rw [isOk_bind (b := (ps.mapM n.argument).outcome.isOk)]
    · exact congrArg (· && _) ((isOk_map _ _).trans (isOk_mapError _ _))
    · intro value _
      exact isOk_map (ps.mapM n.argument).outcome _

/-- the parameters of a call and the reading of their values -/
theorem isOk_parameters :
    (n.parameters >>= fun ps => (ps.mapM n.argument).outcome).isOk = (n.property? ["params"]).all areParameters := by
  unfold parameters
  split
  · rename_i h
    rw [h, ok_bind, isOk_mapM_argument]
    rfl
  · rename_i h
    rw [h, ok_bind, isOk_mapM_argument]
    rfl
  · rename_i items h
    rw [h, Option.all_some, areParameters, ← any_mapM_all]
    cases items.mapM parameter? with
    | none => rfl
    | some ps => exact n.isOk_mapM_argument ps
  · rename_i v h1 h2 h
    rw [h]
    cases v <;> simp_all [areParameters]

theorem isOk_httpCall (client : String) :
    (n.httpCall client).outcome.isOk =
      ((n.property? ["url"]).isSome && (n.property? ["method"]).all isMethod &&
        (n.property? ["params"]).all areParameters && n.hasVariable ["saveAs", "saveResponseAsVariableName"]) := by
  have hname : ∀ f : String → Statement, (n.variableName "saveAs" ["saveResponseAsVariableName"] >>= fun name =>
      pure (f name)).isOk = n.hasVariable ["saveAs", "saveResponseAsVariableName"] :=
    fun f => (isOk_map (n.variableName _ _) f).trans (n.isOk_variableName _ _)
  simp only [httpCall, Logged.outcome_bind, Logged.outcome_lift, Logged.outcome_pure, isOk_required_bind]
  cases n.property? ["url"] with
  | none => rfl
  | some url =>
    simp only [Option.any_some, Option.isSome_some, Bool.true_and, Bool.and_assoc]
    rw [isOk_bind, isOk_method]
    intro method _
    rw [← bind_assoc, isOk_bind, isOk_parameters]
    intro properties _
    exact hname _

end Node

end Flowchart
