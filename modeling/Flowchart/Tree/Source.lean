/-
The source text of a tree.

A program is written as one asynchronous function, a statement per line. A conditional takes three lines and a loop two
around the lines of what is inside, which stand one level deeper. Literals are JSON text, and a key that is no name is
quoted. No parentheses are written but around the object of a property access that is a call, an assignment or has an
operator.
-/
import Flowchart.Json.Write
import Flowchart.Text.Name
import Flowchart.Tree.Basic

namespace Flowchart

/-- how source text is laid out -/
structure RenderOptions where
  functionName : String := "flow"
  indentWidth : Nat := 2
deriving DecidableEq, Repr

/-- a key of an object: a name as it is, any other text quoted -/
def keySource (key : String) : List Char :=
  if Text.isName key.toList then key.toList else quote key.toList

namespace Expression

/-- the expression stands in parentheses when a property of it is taken -/
def isGrouped : Expression → Bool
  | .asyncCall _ _ => true
  | .binary _ _ _ => true
  | .assignment _ _ => true
  | _ => false

mutual

/-- the source text of an expression -/
def source : Expression → List Char
  | .identifier name => name.toList
  | .literal value => value.compact
  | .member base property =>
    (if base.isGrouped then '(' :: source base ++ [')'] else source base) ++ '.' :: property.toList
  | .binary operator left right => source left ++ ' ' :: operator.symbol.toList ++ ' ' :: source right
  | .assignment left right => source left ++ " = ".toList ++ source right
  | .asyncCall callee [] => "await ".toList ++ source callee ++ ['(', ')']
  | .asyncCall callee (a :: arguments) =>
    "await ".toList ++ source callee ++ '(' :: source a ++ sourceArguments arguments ++ [')']
  | .object [] => ['{', '}']
  | .object ((key, value) :: properties) =>
    '{' :: ' ' :: keySource key ++ ':' :: ' ' :: source value ++ sourceProperties properties ++ [' ', '}']

/-- the arguments after the first -/
def sourceArguments : List Expression → List Char
  | [] => []
  | a :: arguments => ',' :: ' ' :: source a ++ sourceArguments arguments

/-- the properties after the first -/
def sourceProperties : List (String × Expression) → List Char
  | [] => []
  | (key, value) :: properties =>
    ',' :: ' ' :: keySource key ++ ':' :: ' ' :: source value ++ sourceProperties properties

end

@[simp] theorem source_identifier (name : String) : (identifier name).source = name.toList := rfl

@[simp] theorem source_literal (value : Json) : (literal value).source = value.compact := rfl

@[simp] theorem source_member (base : Expression) (property : String) :
    (member base property).source =
      (if base.isGrouped then '(' :: source base ++ [')'] else source base) ++ '.' :: property.toList := rfl

@[simp] theorem source_binary (operator : Operator) (left right : Expression) :
    (binary operator left right).source = source left ++ ' ' :: operator.symbol.toList ++ ' ' :: source right := rfl

@[simp] theorem source_assignment (left right : Expression) :
    (assignment left right).source = source left ++ " = ".toList ++ source right := rfl

@[simp] theorem source_asyncCall_nil (callee : Expression) :
    (asyncCall callee []).source = "await ".toList ++ source callee ++ ['(', ')'] := rfl

@[simp] theorem source_asyncCall_cons (callee a : Expression) (arguments : List Expression) :
    (asyncCall callee (a :: arguments)).source =
      "await ".toList ++ source callee ++ '(' :: source a ++ sourceArguments arguments ++ [')'] := rfl

@[simp] theorem source_object_cons (p : String × Expression) (properties : List (String × Expression)) :
    (object (p :: properties)).source =
      '{' :: ' ' :: keySource p.1 ++ ':' :: ' ' :: source p.2 ++ sourceProperties properties ++ [' ', '}'] := rfl

@[simp] theorem sourceProperties_cons (p : String × Expression) (properties : List (String × Expression)) :
    sourceProperties (p :: properties) =
      ',' :: ' ' :: keySource p.1 ++ ':' :: ' ' :: source p.2 ++ sourceProperties properties := rfl

end Expression

/-- a line of source text at a depth of nesting -/
structure Line where
  depth : Nat
  text : List Char
deriving DecidableEq, Repr

/-- the line with its indentation and line break -/
def Line.render (indentWidth : Nat) (l : Line) : List Char :=
  List.replicate (l.depth * indentWidth) ' ' ++ l.text ++ ['\n']

namespace Statement

mutual

/-- the lines of a statement -/
def lines (depth : Nat) : Statement → List Line
  | .expression value => [⟨depth, value.source ++ [';']⟩]
  | .declaration name init => [⟨depth, "const ".toList ++ name.toList ++ " = ".toList ++ init.source ++ [';']⟩]
  | .conditional test consequent alternate =>
    ⟨depth, "if (".toList ++ test.source ++ [')', ' ', '{']⟩ :: linesAll (depth + 1) consequent ++
      ⟨depth, ['}', ' ', 'e', 'l', 's', 'e', ' ', '{']⟩ :: linesAll (depth + 1) alternate ++ [⟨depth, ['}']⟩]
  | .forEach item iterable body =>
    ⟨depth, "for (let ".toList ++ item.toList ++ " of ".toList ++ iterable.source ++ [')', ' ', '{']⟩ ::
      linesAll (depth + 1) body ++ [⟨depth, ['}']⟩]
  | .ret argument => [⟨depth, "return ".toList ++ argument.source ++ [';']⟩]

/-- the lines of a list of statements -/
def linesAll (depth : Nat) : List Statement → List Line
  | [] => []
  | s :: rest => lines depth s ++ linesAll depth rest

end

end Statement

namespace Program

/-- the lines of the function -/
def lines (functionName : String) (p : Program) : List Line :=
  ⟨0, "async function ".toList ++ functionName.toList ++ ['(', ')', ' ', '{']⟩ :: Statement.linesAll 1 p.body ++
    [⟨0, ['}']⟩]

/-- the source text of the function -/
def render (o : RenderOptions) (p : Program) : String :=
  String.ofList ((p.lines o.functionName).flatMap (Line.render o.indentWidth))

end Program

end Flowchart
