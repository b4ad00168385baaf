/-
The tree view.

A tree is drawn a node per line, each under its parent and to the right of it. In front of a label stand a column for
each ancestor, with a bar where that ancestor has a later sibling, and a branch that tells whether the node itself has
one. There is a printer for expressions, one for statements and one for blocks. Each is told whether its node is the
last child of the parent, and tells it to the printers of what is below.
-/
import Flowchart.Json.Write
import Flowchart.Tree.Basic

namespace Flowchart

namespace View

/-- the branch in front of the last and of any other child -/
def branch (last : Bool) : List Char := if last then "└── ".toList else "├── ".toList

/-- the column below the last and below any other child -/
def column (last : Bool) : List Char := if last then "    ".toList else "│   ".toList

/-- the line of a node; `columns` is what stands in front of it -/
def line (columns : List Char) (last : Bool) (label : List Char) : List Char := columns ++ branch last ++ label

/-- the lines of a block; `inside` draws its statements -/
def block (columns : List Char) (last : Bool) (role : String) (empty : Bool) (inside : List Char → List (List Char)) :
    List (List Char) :=
  if empty then [line columns last (role.toList ++ ": BlockStatement (empty)".toList)]
  else line columns last (role.toList ++ ": BlockStatement".toList) :: inside (columns ++ column last)

end View

namespace Expression

mutual

/-- the lines of an expression; its label is preceded by the part that it plays -/
def draw (columns : List Char) (last : Bool) (role : List Char) : Expression → List (List Char)
  | .identifier name => [View.line columns last (role ++ "Identifier: ".toList ++ name.toList)]
  | .literal value => [View.line columns last (role ++ "Literal: ".toList ++ value.compact)]
  | .member base property =>
    View.line columns last (role ++ "MemberExpression (.".toList ++ property.toList ++ [')']) ::
      draw (columns ++ View.column last) true [] base
  | .binary operator left right =>
    View.line columns last (role ++ "BinaryExpression (".toList ++ operator.symbol.toList ++ [')']) ::
      (draw (columns ++ View.column last) false [] left ++ draw (columns ++ View.column last) true [] right)
  | .assignment left right =>
    View.line columns last (role ++ "AssignmentExpression (=)".toList) ::
      (draw (columns ++ View.column last) false [] left ++ draw (columns ++ View.column last) true [] right)
  | .asyncCall callee arguments =>
    View.line columns last (role ++ "AsyncCallExpression".toList) ::
      (draw (columns ++ View.column last) arguments.isEmpty "callee: ".toList callee ++
        drawArguments (columns ++ View.column last) arguments)
  | .object properties =>
    View.line columns last (role ++ "ObjectExpression".toList) ::
      drawProperties (columns ++ View.column last) properties

/-- the lines of arguments -/
def drawArguments (columns : List Char) : List Expression → List (List Char)
  | [] => []
  | e :: rest => draw columns rest.isEmpty [] e ++ drawArguments columns rest

/-- the lines of properties, each with its key -/
def drawProperties (columns : List Char) : List (String × Expression) → List (List Char)
  | [] => []
  | (key, value) :: rest =>
    draw columns rest.isEmpty (key.toList ++ [':', ' ']) value ++ drawProperties columns rest

end

end Expression

namespace Statement

mutual

/-- the lines of a statement -/
def draw (columns : List Char) (last : Bool) : Statement → List (List Char)
  | .expression value =>
    View.line columns last "ExpressionStatement".toList :: value.draw (columns ++ View.column last) true []
  | .declaration name init =>
    View.line columns last ("VariableDeclaration (const ".toList ++ name.toList ++ [')']) ::
      init.draw (columns ++ View.column last) true []
  | .conditional test consequent alternate =>
    View.line columns last "IfStatement".toList ::
      (test.draw (columns ++ View.column last) false "test: ".toList ++
        View.block (columns ++ View.column last) false "consequent" consequent.isEmpty
          (fun columns => drawAll columns consequent) ++
        View.block (columns ++ View.column last) true "alternate" alternate.isEmpty
          (fun columns => drawAll columns alternate))
  | .forEach item iterable body =>
    View.line columns last ("ForEachStatement (".toList ++ item.toList ++ [')']) ::
      (iterable.draw (columns ++ View.column last) false "of: ".toList ++
        View.block (columns ++ View.column last) true "body" body.isEmpty (fun columns => drawAll columns body))
  | .ret argument =>
    View.line columns last "ReturnStatement".toList :: argument.draw (columns ++ View.column last) true []

/-- the lines of statements -/
def drawAll (columns : List Char) : List Statement → List (List Char)
  | [] => []
  | s :: rest => draw columns rest.isEmpty s ++ drawAll columns rest

end

end Statement

namespace Program

/-- the lines of the tree view -/
def viewLines (p : Program) : List (List Char) := "Program".toList :: Statement.drawAll [] p.body

/-- the tree view -/
def view (p : Program) : String := String.ofList (p.viewLines.flatMap (· ++ ['\n']))

end Program

end Flowchart
