/-
JSON text as far as it goes.

Data is read in the order of the text and the first fault is the one that is reported. A fragment is what a text holds
up to its first fault of form: arrays and objects say whether they were closed, and a value that is not there is
`absent`. A decoder walks over a fragment and meets faults of form and faults of content in the order of the text.

`Machine` is a push-down machine that reads one token at a time. Its stack holds the arrays and objects that are open.
-/
import Flowchart.Json.Basic
import Flowchart.Json.Token

namespace Flowchart

/-- a JSON value as far as the text goes -/
inductive Fragment where
  /-- no value stands here -/
  | absent
  | null
  | bool (value : Bool)
  | num (value : Numeral)
  | str (value : Option String)
  | arr (items : List Fragment) (closed : Bool)
  /-- the members, each with its key -/
  | obj (members : List (Option String × Fragment)) (closed : Bool)
deriving Repr, Inhabited

/-- an array or object that is open; what it holds is listed with the last first -/
inductive Frame where
  | arr (items : List Fragment)
  | obj (members : List (Option String × Fragment))
  /-- an object whose last member has a key and no value yet -/
  | member (members : List (Option String × Fragment)) (key : Option String)
deriving Repr

/-- what may come next -/
inductive Expect where
  | value
  /-- a value or the end of an array that has no items -/
  | itemOrClose
  /-- a comma or the end of what is open -/
  | commaOrClose
  | key
  /-- a key or the end of an object that has no members -/
  | keyOrClose
  | colon
deriving DecidableEq, Repr

/-- a machine that reads one value -/
inductive Machine where
  | reading (expect : Expect) (stack : List Frame)
  /-- The value is read. `whole` says that it is complete and that nothing follows it. -/
  | done (value : Fragment) (whole : Bool)
deriving Repr

namespace Machine

/-- what has been read when the text breaks off with these open -/
def broken : List Frame → Fragment → Fragment
  | [], inner => inner
  | .arr items :: stack, .absent => broken stack (.arr items.reverse false)
  | .arr items :: stack, inner => broken stack (.arr (inner :: items).reverse false)
  | .obj members :: stack, _ => broken stack (.obj members.reverse false)
  | .member members key :: stack, inner => broken stack (.obj ((key, inner) :: members).reverse false)

/-- the text breaks off -/
def stop (stack : List Frame) : Machine := .done (broken stack .absent) false

/-- a value is complete -/
def put (value : Fragment) : List Frame → Machine
  | [] => .done value true
  | .arr items :: stack => .reading .commaOrClose (.arr (value :: items) :: stack)
  | .member members key :: stack => .reading .commaOrClose (.obj ((key, value) :: members) :: stack)
  | .obj members :: stack => stop (.obj members :: stack)

/-- a token at the place of a value -/
def readValue (stack : List Frame) : Token → Machine
  | .null => put .null stack
  | .bool b => put (.bool b) stack
  | .num n => put (.num n) stack
  | .str s => put (.str s) stack
  | .arrOpen => .reading .itemOrClose (.arr [] :: stack)
  | .objOpen => .reading .keyOrClose (.obj [] :: stack)
  | _ => stop stack

/-- a token at the place of a key, where anything but a string breaks the text off -/
def readKey (members : List (Option String × Fragment)) (stack : List Frame) : Token → Machine
  | .str s => .reading .colon (.member members s :: stack)
  | _ => stop (.obj members :: stack)

/-- one token -/
def step : Machine → Token → Machine
  | .done value _, _ => .done value false
  | .reading .value stack, t => readValue stack t
  | .reading .itemOrClose (.arr items :: stack), .arrClose => put (.arr items.reverse true) stack
  | .reading .itemOrClose stack, t => readValue stack t
  | .reading .commaOrClose (.arr items :: stack), .comma => .reading .value (.arr items :: stack)
  | .reading .commaOrClose (.arr items :: stack), .arrClose => put (.arr items.reverse true) stack
  | .reading .commaOrClose (.obj members :: stack), .comma => .reading .key (.obj members :: stack)
  | .reading .commaOrClose (.obj members :: stack), .objClose => put (.obj members.reverse true) stack
  | .reading .keyOrClose (.obj members :: stack), .objClose => put (.obj members.reverse true) stack
  | .reading .keyOrClose (.obj members :: stack), t => readKey members stack t
  | .reading .key (.obj members :: stack), t => readKey members stack t
  | .reading .colon stack, .colon => .reading .value stack
  | .reading _ stack, _ => stop stack

/-- all tokens of a list -/
def run (m : Machine) (ts : List Token) : Machine := ts.foldl step m

/-- what has been read at the end of the text, and whether it is one value and nothing else -/
def finish : Machine → Fragment × Bool
  | .reading _ stack => (broken stack .absent, false)
  | .done value whole => (value, whole)

end Machine

namespace Fragment

/-- what a text holds up to its first fault of form, and whether it is one value and nothing else -/
def ofText (s : List Char) : Fragment × Bool := ((Machine.reading .value []).run (Token.tokens s)).finish

mutual

/-- everything that was opened is closed and nothing is absent -/
def isComplete : Fragment → Bool
  | .absent => false
  | .null => true
  | .bool _ => true
  | .num _ => true
  | .str _ => true
  | .arr items closed => isCompleteItems items && closed
  | .obj members closed => isCompleteMembers members && closed

/-- all items are complete -/
def isCompleteItems : List Fragment → Bool
  | [] => true
  | v :: items => isComplete v && isCompleteItems items

/-- all members are complete -/
def isCompleteMembers : List (Option String × Fragment) → Bool
  | [] => true
  | (_, v) :: members => isComplete v && isCompleteMembers members

end

mutual

/-- The value of a fragment. None where the text breaks off, half of a surrogate pair stands alone, a number is out of
range or more than `depth` arrays and objects are nested. -/
def toJson? (depth : Nat) : Fragment → Option Json
  | .absent => none
  | .null => some .null
  | .bool b => some (.bool b)
  | .num n => (Number.ofNumeral? n).map .num
  | .str s => s.map .str
  | .arr items closed =>
    if depth = 0 ∨ ¬closed then none else (toJsonItems? (depth - 1) items).map .arr
  | .obj members closed =>
    if depth = 0 ∨ ¬closed then none else (toJsonMembers? (depth - 1) members).map Json.ofMembers

/-- the values of all items -/
def toJsonItems? (depth : Nat) : List Fragment → Option (List Json)
  | [] => some []
  | v :: items =>
    match toJson? depth v, toJsonItems? depth items with
    | some v, some items => some (v :: items)
    | _, _ => none

/-- the keys and values of all members -/
def toJsonMembers? (depth : Nat) : List (Option String × Fragment) → Option (List (String × Json))
  | [] => some []
  | (some k, v) :: members =>
    match toJson? depth v, toJsonMembers? depth members with
    | some v, some members => some ((k, v) :: members)
    | _, _ => none
  | (none, _) :: _ => none

end

end Fragment

/-- how many arrays and objects may be nested in a text -/
def depthLimit : Nat := 127

/-- the value that a text holds; none when the text is not JSON or nests too deep -/
def Json.parse? (s : String) : Option Json :=
  match Fragment.ofText s.toList with
  | (v, true) => v.toJson? depthLimit
  | (_, false) => none

end Flowchart
