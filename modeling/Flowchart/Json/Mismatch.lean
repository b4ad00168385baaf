/-
Why JSON text does not hold the data that is asked for.

`ReadError` tells the two kinds of fault apart: the text is not JSON (`malformed`), or it is, as far as it was read, and
holds something else (`mismatch`). The wording of each mismatch is in `Mismatch.message` alone.
-/
import Flowchart.Json.Fragment
import Flowchart.Json.Write
import Flowchart.Text.Printable

namespace Flowchart

/-- what was found in place of the data -/
inductive Found where
  | null
  | bool (value : Bool)
  | num (value : Number)
  | str (value : String)
  | arr
  | obj
deriving DecidableEq, Repr

/-- JSON that holds other data than asked for -/
inductive Mismatch where
  | wrongType (found : Found) (expected : String)
  | wrongLength (length : Nat) (expected : String)
  | missingField (name : String)
  | repeatedField (name : String)
  | unknownVariant (name : String) (known : List String)
  /-- a variant is given by a number that is not below their count -/
  | unknownIndex (index : Nat) (count : Nat)
  /-- an object stands for a variant and has not exactly one member -/
  | notOneMember
deriving DecidableEq, Repr

/-- why data could not be read from a text -/
inductive ReadError where
  | malformed
  | mismatch (cause : Mismatch)
deriving DecidableEq, Repr

namespace Found

/-- how a message names what was found -/
def text : Found → String
  | .null => "null"
  | .bool true => "boolean `true`"
  | .bool false => "boolean `false`"
  | .num (.int n h) => "integer `" ++ String.ofList (Number.int n h).text ++ "`"
  | .num (.double x) => "floating point `" ++ String.ofList x.text ++ "`"
  | .str s => "string " ++ Text.quoted s
  | .arr => "sequence"
  | .obj => "map"

/-- what a value is -/
def ofJson : Json → Found
  | .null => .null
  | .bool b => .bool b
  | .num n => .num n
  | .str s => .str s
  | .arr _ => .arr
  | .obj _ => .obj

/-- What a fragment is. None where the text breaks off, a number is out of range or half of a surrogate pair stands
alone: then the text is not JSON in the first place. -/
def ofFragment? : Fragment → Option Found
  | .absent => none
  | .null => some .null
  | .bool b => some (.bool b)
  | .num n => (Number.ofNumeral? n).map .num
  | .str s => s.map .str
  | .arr _ _ => some .arr
  | .obj _ _ => some .obj

end Found

namespace Mismatch

/-- a name between backticks -/
def ticked (name : String) : String := "`" ++ name ++ "`"

/-- the names that would have been right -/
def choice : List String → String
  | [] => "no variants"
  | [a] => ticked a
  | [a, b] => ticked a ++ " or " ++ ticked b
  | names => "one of " ++ String.intercalate ", " (names.map ticked)

/-- a count of elements -/
def elements (n : Nat) : String := if n = 1 then "1 element" else toString n ++ " elements"

/-- the wording of a mismatch -/
def message : Mismatch → String
  | .wrongType found expected => "invalid type: " ++ found.text ++ ", expected " ++ expected
  | .wrongLength n expected => "invalid length " ++ toString n ++ ", expected " ++ expected
  | .missingField name => "missing field " ++ ticked name
  | .repeatedField name => "duplicate field " ++ ticked name
  | .unknownVariant name known => "unknown variant " ++ ticked name ++ ", expected " ++ choice known
  | .unknownIndex i count =>
    "invalid value: integer " ++ ticked (toString i) ++ ", expected variant index 0 <= i < " ++ toString count
  | .notOneMember => "invalid value: map, expected map with a single key"

end Mismatch

namespace ReadError

/-- the wording of a fault -/
def message : ReadError → String
  | .malformed => "the text is not well-formed JSON"
  | .mismatch cause => cause.message

/-- a value that is not what was expected -/
def wrongType (v : Json) (expected : String) : ReadError := .mismatch (.wrongType (.ofJson v) expected)

/-- a fragment that is not what was expected; a fault of its form comes first -/
def wrongFragment (v : Fragment) (expected : String) : ReadError :=
  match Found.ofFragment? v with
  | some found => .mismatch (.wrongType found expected)
  | none => .malformed

/-- a field that has to be there -/
def required {α : Type} (name : String) : Option α → Except ReadError α
  | some a => .ok a
  | none => .error (.mismatch (.missingField name))

end ReadError

end Flowchart
