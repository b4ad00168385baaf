/-
Formulas: the small language of expressions inside node properties.

A text is cut at its first `+`, and if it has none at its first `===`; the two sides are trimmed and read the same way.
A text without an operator is a reference if it starts with `$`: to a variable, or with one `/` to a property of a
variable. Any other text is a number if it reads as one, and otherwise the text itself.

`read` is one look at a text and `parse` follows it to the end. Both sides of a cut are shorter than the text
(`length_read`), so `parse` ends.
-/
import Flowchart.Json.Write
import Flowchart.Text.Blank
import Flowchart.Text.Cut
import Flowchart.Text.Name
import Flowchart.Tree.Basic

namespace Flowchart

/-- why a property does not hold what it should -/
inductive Reason where
  | noName
  | blankInReference
  | emptyPart
  | manySeparators
  | missingOperand (operator : Operator)
  | notScalar
  | notMethod
  | notParameters
  | notVariable
deriving DecidableEq, Repr

/-- the wording of a reason -/
def Reason.message : Reason → String
  | .noName => "the reference sigil is not followed by a name"
  | .blankInReference => "a reference cannot contain whitespace"
  | .emptyPart => "a member reference needs both an object and a property"
  | .manySeparators => "only a single '/' separator is supported in a reference"
  | .missingOperand operator => "the '" ++ operator.symbol ++ "' operator needs an operand on both sides"
  | .notScalar => "expected a string or a number"
  | .notMethod => "the HTTP method must be a plain identifier"
  | .notParameters => "expected a list of \x7bkey, value\x7d entries"
  | .notVariable => "expected a variable name"

/-- a text that could not be read, and why -/
structure Unparsable where
  input : String
  reason : Reason
deriving DecidableEq, Repr

/-- the wording of a text that could not be read -/
def Unparsable.message (u : Unparsable) : String :=
  "Cannot parse expression '" ++ u.input ++ "': " ++ u.reason.message

/-- a value that is not what it should be, with its text -/
def Unparsable.ofJson (v : Json) (reason : Reason) : Unparsable := ⟨v.toText, reason⟩

namespace Formula

/-- what one look at a text finds -/
inductive Reading where
  | atom (value : Expression)
  | operation (operator : Operator) (left right : List Char)
  | refused (reason : Reason)
deriving Repr

/-- the sides of an operator, trimmed; neither may be empty -/
def operation (operator : Operator) (left right : List Char) : Reading :=
  if (Text.trim left).isEmpty ∨ (Text.trim right).isEmpty then .refused (.missingOperand operator)
  else .operation operator (Text.trim left) (Text.trim right)

/-- a reference, without its sigil -/
def reference (s : List Char) : Reading :=
  if s.isEmpty then .refused .noName
  else if s.any Text.isBlank then .refused .blankInReference
  else
    match Text.cut? ['/'] s with
    | none => .atom (.identifier (String.ofList s))
    | some (object, property) =>
      if '/' ∈ property then .refused .manySeparators
      else if object.isEmpty ∨ property.isEmpty then .refused .emptyPart
      else .atom (.member (.identifier (String.ofList object)) (String.ofList property))

/-- the finite double that a text reads as, blanks around it aside -/
def number? (s : List Char) : Option Binary64 := (Numeral.plain? (Text.trim s)).bind (·.value?)

/-- a text without sigil and operator -/
def constant (s : List Char) : Expression :=
  match number? s with
  | some x => .ofBinary64 x
  | none => .literal (.str (String.ofList s))

/-- one look at a text -/
def read (s : List Char) : Reading :=
  match Text.cut? ['+'] s with
  | some (left, right) => operation .add left right
  | none =>
    match Text.cut? ['=', '=', '='] s with
    | some (left, right) => operation .strictEqual left right
    | none =>
      match s with
      | '$' :: name => reference name
      | s => .atom (constant s)

theorem operation_eq {operator op : Operator} {left right l r : List Char}
    (h : operation operator left right = .operation op l r) :
    op = operator ∧ l = Text.trim left ∧ r = Text.trim right := by
  unfold operation at h
  split at h
  · simp at h
  · simp only [Reading.operation.injEq] at h
    exact ⟨h.1.symm, h.2.1.symm, h.2.2.symm⟩

theorem reference_ne_operation {s l r : List Char} {op : Operator} : reference s ≠ .operation op l r := by
  unfold reference
  repeat' split
  all_goals simp

theorem length_read {s l r : List Char} {op : Operator} (h : read s = .operation op l r) :
    l.length < s.length ∧ r.length < s.length := by
  unfold read at h
  split at h
  · rename_i left right hcut
    obtain ⟨-, rfl, rfl⟩ := operation_eq h
    have h1 := Text.length_cut?_left hcut (by simp)
    have h2 := Text.length_cut?_right hcut (by simp)
    have h3 := Text.length_trim_le left
    have h4 := Text.length_trim_le right
    omega
  · split at h
    · rename_i left right hcut
      obtain ⟨-, rfl, rfl⟩ := operation_eq h
      have h1 := Text.length_cut?_left hcut (by simp)
      have h2 := Text.length_cut?_right hcut (by simp)
      have h3 := Text.length_trim_le left
      have h4 := Text.length_trim_le right
      omega
    · split at h
      · exact absurd h reference_ne_operation
      · simp at h

/-- the expression that a text stands for -/
def parse (s : List Char) : Except Unparsable Expression :=
  match h : read s with
  | .atom e => .ok e
  | .refused reason => .error ⟨String.ofList s, reason⟩
  | .operation operator left right =>
    have := length_read h
    do
      let l ← parse left
      let r ← parse right
      return .binary operator l r
termination_by s.length
decreasing_by all_goals omega

/-- The texts that are looked at while a text is read, in order: the text itself, those of its left side, and if that is
an expression those of its right side. -/
def texts (s : List Char) : List (List Char) :=
  match h : read s with
  | .operation _ left right =>
    have := length_read h
    s :: texts left ++ (match parse left with
      | .ok _ => texts right
      | .error _ => [])
  | _ => [s]
termination_by s.length
decreasing_by all_goals omega

/-- the expression that a property value stands for: a text is a formula, any other scalar a literal -/
def ofJson : Json → Except Unparsable Expression
  | .str s => parse s.toList
  | .num n => .ok (.literal (.num n))
  | .bool b => .ok (.literal (.bool b))
  | .null => .ok (.literal .null)
  | v => .error (.ofJson v .notScalar)

/-- the texts that are looked at while a property value is read -/
def textsOfJson : Json → List (List Char)
  | .str s => texts s.toList
  | _ => []

/-- the name that a text is when it is a plain name, blanks around it aside -/
def plainName? (s : List Char) : Option (List Char) :=
  let name := Text.trim s
  if name.head? ≠ some '$' ∧ Text.isName name then some name else none

/-- The target of an assignment: a plain name is a variable, anything else an expression. -/
def target (v : Json) : Except Unparsable Expression :=
  match v with
  | .str s =>
    match plainName? s.toList with
    | some name => .ok (.identifier (String.ofList name))
    | none => ofJson v
  | _ => ofJson v

/-- the texts that are looked at while the target of an assignment is read -/
def textsOfTarget (v : Json) : List (List Char) :=
  match v with
  | .str s => if (plainName? s.toList).isSome then [] else textsOfJson v
  | _ => []

/-- the variable that a value names: a text that is a name after trimming and after at most one `$` -/
def boundName? : Json → Option String
  | .str s =>
    let name := match Text.trim s.toList with
      | '$' :: name => name
      | name => name
    if Text.isName name then some (String.ofList name) else none
  | _ => none

end Formula

end Flowchart
