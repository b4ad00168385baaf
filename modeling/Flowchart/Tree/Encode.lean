/-
Trees as JSON.

Every node of a tree is an object whose first member `type` holds the tag of its kind. The fields of the kind follow in
order.
-/
import Flowchart.Json.Write
import Flowchart.Tree.Basic

namespace Flowchart

/-- the object of a tree node, from its tag and its fields with their values -/
def nodeJson (tag : String) (fields : List String) (values : List Json) : Json :=
  .obj (("type", .str tag) :: fields.zip values)

namespace Expression

/-- an expression of a kind as JSON, from its parts as JSON -/
def node (k : ExpressionKind) (values : List Json) : Json := nodeJson k.tag k.fields values

mutual

/-- an expression as JSON -/
def toJson : Expression → Json
  | .identifier name => node .identifier [.str name]
  | .literal value => node .literal [value]
  | .member base property => node .member [toJson base, .str property]
  | .binary operator left right => node .binary [.str operator.symbol, toJson left, toJson right]
  | .assignment left right => node .assignment [toJson left, toJson right]
  | .asyncCall callee arguments => node .asyncCall [toJson callee, .arr (toJsonAll arguments)]
  | .object properties => node .object [.arr (toJsonProperties properties)]

/-- expressions as JSON -/
def toJsonAll : List Expression → List Json
  | [] => []
  | e :: rest => toJson e :: toJsonAll rest

/-- the properties of an object as JSON -/
def toJsonProperties : List (String × Expression) → List Json
  | [] => []
  | (key, value) :: rest => .obj [("key", .str key), ("value", toJson value)] :: toJsonProperties rest

end

end Expression

namespace Statement

/-- a statement of a kind as JSON, from its parts as JSON -/
def node (k : StatementKind) (values : List Json) : Json := nodeJson k.tag k.fields values

/-- a block as JSON, from its statements as JSON -/
def block (body : List Json) : Json := nodeJson "BlockStatement" ["body"] [.arr body]

mutual

/-- a statement as JSON -/
def toJson : Statement → Json
  | .expression value => node .expression [value.toJson]
  | .declaration name init => node .declaration [.str name, init.toJson]
  | .conditional test consequent alternate =>
    node .conditional [test.toJson, block (toJsonAll consequent), block (toJsonAll alternate)]
  | .forEach item iterable body => node .forEach [.str item, iterable.toJson, block (toJsonAll body)]
  | .ret argument => node .ret [argument.toJson]

/-- statements as JSON -/
def toJsonAll : List Statement → List Json
  | [] => []
  | s :: rest => toJson s :: toJsonAll rest

end

end Statement

/-- a program as JSON -/
def Program.toJson (p : Program) : Json := nodeJson "Program" ["body"] [.arr (Statement.toJsonAll p.body)]

end Flowchart
