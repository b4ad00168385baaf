/-
Names of variables and properties.

A name starts with an ASCII letter, an underscore or a dollar sign and goes on with those and ASCII digits. Such a text
can stand unquoted in the generated code.
-/

namespace Flowchart.Text

/-- the character can start a name -/
def isNameStart (c : Char) : Bool := c.isAlpha || c == '_' || c == '$'

/-- the character can stand inside a name -/
def isNamePart (c : Char) : Bool := c.isAlphanum || c == '_' || c == '$'

/-- the text is a name -/
def isName : List Char → Bool
  | [] => false
  | c :: s => isNameStart c && s.all isNamePart

end Flowchart.Text
