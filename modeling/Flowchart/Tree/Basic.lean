/-
The tree of a generated function.

A program is the body of one asynchronous function: a list of statements. Conditionals and loops hold lists of
statements of their own, so the tree is nested. `walk` lists the statements of a tree depth first, each before what is
inside it.
-/
import Flowchart.Json.Basic
import Flowchart.Tree.Kind

namespace Flowchart

/-- an operator between two operands -/
inductive Operator where
  | add
  | strictEqual
deriving DecidableEq, Repr

/-- how an operator is written -/
def Operator.symbol : Operator → String
  | .add => "+"
  | .strictEqual => "==="

/-- an expression -/
inductive Expression where
  | identifier (name : String)
  | literal (value : Json)
  | member (base : Expression) (property : String)
  | binary (operator : Operator) (left right : Expression)
  | assignment (left right : Expression)
  /-- a call whose result is awaited -/
  | asyncCall (callee : Expression) (arguments : List Expression)
  /-- an object, property by property; keys may repeat -/
  | object (properties : List (String × Expression))
deriving Repr, Inhabited

/-- a statement -/
inductive Statement where
  | expression (value : Expression)
  | declaration (name : String) (init : Expression)
  | conditional (test : Expression) (consequent alternate : List Statement)
  | forEach (item : String) (iterable : Expression) (body : List Statement)
  | ret (argument : Expression)
deriving Repr, Inhabited

/-- the body of a generated function -/
structure Program where
  body : List Statement
deriving Repr, Inhabited

/-- The literal of a double. One that is an integer below 2^63 is written as an integer. -/
def Expression.ofBinary64 (x : Binary64) : Expression := .literal (.num (.ofBinary64 x))

/-- The literal of the double with this bit pattern; what is not finite gives zero. -/
def Expression.ofBits (bits : UInt64) : Expression :=
  match Binary64.ofBits? bits with
  | some x => .ofBinary64 x
  | none => .literal (.num .zero)

/-- the kind of an expression -/
def Expression.kind : Expression → ExpressionKind
  | .identifier _ => .identifier
  | .literal _ => .literal
  | .member _ _ => .member
  | .binary _ _ _ => .binary
  | .assignment _ _ => .assignment
  | .asyncCall _ _ => .asyncCall
  | .object _ => .object

namespace Statement

/-- the kind of a statement -/
def kind : Statement → StatementKind
  | .expression _ => .expression
  | .declaration _ _ => .declaration
  | .conditional _ _ _ => .conditional
  | .forEach _ _ _ => .forEach
  | .ret _ => .ret

/-- the statement returns from the function -/
def isReturn : Statement → Bool
  | .ret _ => true
  | _ => false

mutual

/-- the statement and all statements inside it, depth first -/
def walk : Statement → List Statement
  | .expression e => [.expression e]
  | .declaration name init => [.declaration name init]
  | .conditional test consequent alternate =>
    .conditional test consequent alternate :: (walkAll consequent ++ walkAll alternate)
  | .forEach item iterable body => .forEach item iterable body :: walkAll body
  | .ret argument => [.ret argument]

/-- the statements of a list and all inside them, depth first -/
def walkAll : List Statement → List Statement
  | [] => []
  | s :: rest => walk s ++ walkAll rest

end

end Statement

/-- all statements of a program, depth first -/
def Program.walk (p : Program) : List Statement := Statement.walkAll p.body

end Flowchart
