/-
JSON values.

A number is an integer that fits in 64 bits, signed or unsigned (from -2^63 to 2^64), or a finite double. An object is
the list of its members in the order in which they are written. `ofMembers` sorts by key and keeps the last of several
members with one key: that is the form in which objects are read.

A numeral that is read as a double is rounded correctly, a half to the even neighbour (`ofNumeral?`). That is assumed of
the JSON library: no other rounding is modelled, and that a number is read back from its text rests on it.
-/
import Flowchart.Decimal.Numeral

namespace Flowchart

/-- a JSON number -/
inductive Number where
  | int (value : Int) (inRange : -0x8000000000000000 ≤ value ∧ value < 0x10000000000000000)
  | double (value : Binary64)
deriving DecidableEq, Repr

namespace Number

/-- The number that a numeral stands for. A numeral without point and exponent is an integer if that fits in 64 bits,
minus zero excepted; any other is a double. None when the double is not finite. -/
def ofNumeral? (n : Numeral) : Option Number :=
  let value := n.integer
  if h : n.isInteger ∧ ¬(n.negative ∧ value = 0) ∧ -0x8000000000000000 ≤ value ∧ value < 0x10000000000000000 then
    some (.int value h.2.2)
  else n.value?.map .double

/-- A double without a part after the point is stored as a signed 64-bit integer if it is nearer to zero than the double
for the largest of these. Any other is stored as it is. -/
def ofBinary64 (x : Binary64) : Number :=
  if x.isIntegral ∧ x.rank < Binary64.limit then
    .int x.toInt64 ⟨x.toInt64_range.1, Int.lt_trans x.toInt64_range.2 (by decide)⟩
  else .double x

/-- zero, stored as an integer -/
def zero : Number := .int 0 (by decide)

end Number

/-- a JSON value -/
inductive Json where
  | null
  | bool (value : Bool)
  | num (value : Number)
  | str (value : String)
  | arr (items : List Json)
  | obj (members : List (String × Json))
deriving Repr, Inhabited

namespace Json

/-- the members with one more, in the order of keys; it replaces a member with the same key -/
def insertMember (key : String) (value : Json) : List (String × Json) → List (String × Json)
  | [] => [(key, value)]
  | m :: rest =>
    match compare key m.1 with
    | .lt => (key, value) :: m :: rest
    | .eq => (key, value) :: rest
    | .gt => m :: insertMember key value rest

/-- members sorted by key; of several with one key the last is kept -/
def sortMembers (members : List (String × Json)) : List (String × Json) :=
  members.foldl (fun sorted m => insertMember m.1 m.2 sorted) []

/-- the object of these members, sorted by key -/
def ofMembers (members : List (String × Json)) : Json := .obj (sortMembers members)

/-- the value under a key -/
def get? (key : String) (members : List (String × Json)) : Option Json := (members.find? (·.1 == key)).map (·.2)

end Json

end Flowchart
