/-
The kinds of tree nodes.

A kind has a tag, which names it in JSON, a title, which names it in messages, and the fields of its nodes in order.
-/

namespace Flowchart

/-- the kinds of expressions -/
inductive ExpressionKind where
  | identifier
  | literal
  | member
  | binary
  | assignment
  | asyncCall
  | object
deriving DecidableEq, Repr

namespace ExpressionKind

/-- all kinds, in the order in which messages list them -/
def all : List ExpressionKind := [.identifier, .literal, .member, .binary, .assignment, .asyncCall, .object]

/-- the tag in JSON -/
def tag : ExpressionKind → String
  | .identifier => "Identifier"
  | .literal => "Literal"
  | .member => "MemberExpression"
  | .binary => "BinaryExpression"
  | .assignment => "AssignmentExpression"
  | .asyncCall => "AsyncCallExpression"
  | .object => "ObjectExpression"

/-- the name in messages -/
def title : ExpressionKind → String
  | .identifier => "Expression::Identifier"
  | .literal => "Expression::Literal"
  | .member => "Expression::Member"
  | .binary => "Expression::Binary"
  | .assignment => "Expression::Assignment"
  | .asyncCall => "Expression::AsyncCall"
  | .object => "Expression::Object"

/-- the fields after the tag -/
def fields : ExpressionKind → List String
  | .identifier => ["name"]
  | .literal => ["value"]
  | .member => ["object", "property"]
  | .binary => ["operator", "left", "right"]
  | .assignment => ["left", "right"]
  | .asyncCall => ["callee", "arguments"]
  | .object => ["properties"]

end ExpressionKind

/-- the kinds of statements -/
inductive StatementKind where
  | expression
  | declaration
  | conditional
  | forEach
  | ret
deriving DecidableEq, Repr

namespace StatementKind

/-- all kinds, in the order in which messages list them -/
def all : List StatementKind := [.expression, .declaration, .conditional, .forEach, .ret]

/-- the tag in JSON -/
def tag : StatementKind → String
  | .expression => "ExpressionStatement"
  | .declaration => "VariableDeclaration"
  | .conditional => "IfStatement"
  | .forEach => "ForEachStatement"
  | .ret => "ReturnStatement"

/-- the name in messages -/
def title : StatementKind → String
  | .expression => "Statement::Expression"
  | .declaration => "Statement::VariableDeclaration"
  | .conditional => "Statement::If"
  | .forEach => "Statement::ForEach"
  | .ret => "Statement::Return"

/-- the fields after the tag -/
def fields : StatementKind → List String
  | .expression => ["expression"]
  | .declaration => ["name", "init"]
  | .conditional => ["test", "consequent", "alternate"]
  | .forEach => ["variable", "iterable", "body"]
  | .ret => ["argument"]

end StatementKind

/-- the tags of all tree nodes -/
def knownTags : List String :=
  ["Program", "BlockStatement"] ++ StatementKind.all.map (·.tag) ++ ExpressionKind.all.map (·.tag)

end Flowchart
