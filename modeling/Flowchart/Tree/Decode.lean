/-
Trees from JSON.

A node of a tree is read from an object with a member `type`, whose value is the tag of its kind, or from an array of
the tag and the fields in order. The tag is read first. The fields of an object are read in the order in which they
stand, the first fault is reported, and a field that is missing is noticed after all others were read. Members that are
no fields are ignored.

Inside a statement a tag may also be the number of its kind, counted from zero.
-/
import Flowchart.Json.Mismatch
import Flowchart.Tree.Basic

namespace Flowchart

open ReadError (required)

/-! ## Values and tags -/

/-- a text -/
def Json.text : Json → Except ReadError String
  | .str s => .ok s
  | v => .error (.wrongType v "a string")

/-- the kind that a tag names, of a list of kinds; `numbered` says that a kind may be given by its number -/
def tagged {κ : Type} (all : List κ) (tag : κ → String) (numbered : Bool) (v : Json) : Except ReadError κ :=
  match v with
  | .str s =>
    match all.find? fun k => tag k == s with
    | some k => .ok k
    | none => .error (.mismatch (.unknownVariant s (all.map tag)))
  | .num (.int n h) =>
    if numbered ∧ 0 ≤ n then
      match all[n.toNat]? with
      | some k => .ok k
      | none => .error (.mismatch (.unknownIndex n.toNat all.length))
    else .error (.wrongType (.num (.int n h)) "variant identifier")
  | v => .error (.wrongType v "variant identifier")

/-- An operator: its symbol, or an object with the symbol as its one key and nothing as its value. -/
def Operator.decode : Json → Except ReadError Operator
  | .str s => tagged [.add, .strictEqual] Operator.symbol false (.str s)
  | .obj [(key, value)] => do
    let operator ← tagged [.add, .strictEqual] Operator.symbol false (.str key)
    match value with
    | .null => return operator
    | .obj [] => return operator
    | v => throw (.wrongType v "unit")
  | .obj _ => .error (.mismatch .notOneMember)
  | v => .error (.wrongType v "string or map")

/-- A node that is read from an array has all its fields and no more. `count` is their number and `given` is how many
are there. -/
def checkLength (title : String) (count given : Nat) : Except ReadError Unit :=
  if given < count then .error (.mismatch (.wrongLength given (title ++ " with " ++ Mismatch.elements count)))
  else if count < given then .error (.mismatch (.wrongLength given (Mismatch.elements count ++ " in sequence")))
  else .ok ()

/-! ## Expressions -/

namespace Expression

/-- the fields of an expression that have been read -/
structure Parts where
  name : Option String := none
  value : Option Json := none
  base : Option Expression := none
  property : Option String := none
  operator : Option Operator := none
  left : Option Expression := none
  right : Option Expression := none
  callee : Option Expression := none
  arguments : Option (List Expression) := none
  properties : Option (List (String × Expression)) := none

/-- how a value reads as each thing that takes part in an expression -/
structure Reader where
  expression : Unit → Except ReadError Expression
  expressions : Unit → Except ReadError (List Expression)
  properties : Unit → Except ReadError (List (String × Expression))

/-- the parts with one more field -/
def Parts.read (p : Parts) (key : String) (v : Json) (r : Reader) : Except ReadError Parts :=
  match key with
  | "name" => return { p with name := some (← v.text) }
  | "value" => return { p with value := some v }
  | "object" => return { p with base := some (← r.expression ()) }
  | "property" => return { p with property := some (← v.text) }
  | "operator" => return { p with operator := some (← Operator.decode v) }
  | "left" => return { p with left := some (← r.expression ()) }
  | "right" => return { p with right := some (← r.expression ()) }
  | "callee" => return { p with callee := some (← r.expression ()) }
  | "arguments" => return { p with arguments := some (← r.expressions ()) }
  | "properties" => return { p with properties := some (← r.properties ()) }
  | _ => return p

/-- the expression of a kind with these parts -/
def Parts.build (p : Parts) : ExpressionKind → Except ReadError Expression
  | .identifier => return .identifier (← required "name" p.name)
  | .literal => return .literal (← required "value" p.value)
  | .member => return .member (← required "object" p.base) (← required "property" p.property)
  | .binary =>
    return .binary (← required "operator" p.operator) (← required "left" p.left) (← required "right" p.right)
  | .assignment => return .assignment (← required "left" p.left) (← required "right" p.right)
  | .asyncCall => return .asyncCall (← required "callee" p.callee) (← required "arguments" p.arguments)
  | .object => return .object (← required "properties" p.properties)

mutual

/-- an expression -/
def decode : Json → Except ReadError Expression
  | .obj members => do
    let tag ← required "type" (Json.get? "type" members)
    let kind ← tagged ExpressionKind.all ExpressionKind.tag true tag
    let parts ← decodeMembers kind members {}
    parts.build kind
  | .arr [] => .error (.mismatch (.missingField "type"))
  | .arr (tag :: items) => do
    let kind ← tagged ExpressionKind.all ExpressionKind.tag true tag
    let parts ← decodeFields kind.fields items {}
    checkLength ("struct variant " ++ kind.title) kind.fields.length items.length
    parts.build kind
  | v => .error (.wrongType v "internally tagged enum Expression")

/-- the fields among the members of an object -/
def decodeMembers (kind : ExpressionKind) : List (String × Json) → Parts → Except ReadError Parts
  | [], p => .ok p
  | (key, v) :: rest, p => do
    if key ∈ kind.fields then
      let p ← p.read key v ⟨fun _ => decode v, fun _ => decodeAll v, fun _ => decodeProperties v⟩
      decodeMembers kind rest p
    else decodeMembers kind rest p

/-- the fields among the items of an array -/
def decodeFields : List String → List Json → Parts → Except ReadError Parts
  | key :: fields, v :: rest, p => do
    let p ← p.read key v ⟨fun _ => decode v, fun _ => decodeAll v, fun _ => decodeProperties v⟩
    decodeFields fields rest p
  | _, _, p => .ok p

/-- a list of expressions -/
def decodeAll : Json → Except ReadError (List Expression)
  | .arr items => decodeItems items
  | v => .error (.wrongType v "a sequence")

/-- the expressions of a list, one by one -/
def decodeItems : List Json → Except ReadError (List Expression)
  | [] => .ok []
  | v :: rest => do
    let e ← decode v
    return e :: (← decodeItems rest)

/-- a list of properties -/
def decodeProperties : Json → Except ReadError (List (String × Expression))
  | .arr items => decodePropertyItems items
  | v => .error (.wrongType v "a sequence")

/-- the properties of a list, one by one -/
def decodePropertyItems : List Json → Except ReadError (List (String × Expression))
  | [] => .ok []
  | .obj members :: rest => do
    let (key, value) ← decodePropertyMembers members (none, none)
    let property := (← required "key" key, ← required "value" value)
    return property :: (← decodePropertyItems rest)
  | .arr items :: rest => do
    let (key, value) ← decodePropertyFields items
    checkLength "struct Property" 2 items.length
    let property := (← required "key" key, ← required "value" value)
    return property :: (← decodePropertyItems rest)
  | v :: _ => .error (.wrongType v "struct Property")

/-- key and value among the members of an object -/
def decodePropertyMembers :
    List (String × Json) → Option String × Option Expression → Except ReadError (Option String × Option Expression)
  | [], p => .ok p
  | (key, v) :: rest, p => do
    if key = "key" then decodePropertyMembers rest (some (← v.text), p.2)
    else if key = "value" then decodePropertyMembers rest (p.1, some (← decode v))
    else decodePropertyMembers rest p

/-- key and value among the items of an array -/
def decodePropertyFields : List Json → Except ReadError (Option String × Option Expression)
  | [] => .ok (none, none)
  | [key] => return (some (← key.text), none)
  | key :: value :: _ => do
    let key ← key.text
    return (some key, some (← decode value))

end

end Expression

/-! ## Statements -/

namespace Statement

/-- the fields of a statement that have been read -/
structure Parts where
  expression : Option Expression := none
  name : Option String := none
  init : Option Expression := none
  test : Option Expression := none
  consequent : Option (List Statement) := none
  alternate : Option (List Statement) := none
  item : Option String := none
  iterable : Option Expression := none
  body : Option (List Statement) := none
  argument : Option Expression := none

/-- the parts with one more field; `block` is how the value reads as a block -/
def Parts.read (p : Parts) (key : String) (v : Json) (block : Unit → Except ReadError (List Statement)) :
    Except ReadError Parts :=
  match key with
  | "expression" => return { p with expression := some (← Expression.decode v) }
  | "name" => return { p with name := some (← v.text) }
  | "init" => return { p with init := some (← Expression.decode v) }
  | "test" => return { p with test := some (← Expression.decode v) }
  | "consequent" => return { p with consequent := some (← block ()) }
  | "alternate" => return { p with alternate := some (← block ()) }
  | "variable" => return { p with item := some (← v.text) }
  | "iterable" => return { p with iterable := some (← Expression.decode v) }
  | "body" => return { p with body := some (← block ()) }
  | "argument" => return { p with argument := some (← Expression.decode v) }
  | _ => return p

/-- the statement of a kind with these parts -/
def Parts.build (p : Parts) : StatementKind → Except ReadError Statement
  | .expression => return .expression (← required "expression" p.expression)
  | .declaration => return .declaration (← required "name" p.name) (← required "init" p.init)
  | .conditional =>
    return .conditional (← required "test" p.test) (← required "consequent" p.consequent)
      (← required "alternate" p.alternate)
  | .forEach =>
    return .forEach (← required "variable" p.item) (← required "iterable" p.iterable) (← required "body" p.body)
  | .ret => return .ret (← required "argument" p.argument)

mutual

/-- A statement. `inner` says that it stands inside another one. -/
def decode (inner : Bool) : Json → Except ReadError Statement
  | .obj members => do
    let tag ← required "type" (Json.get? "type" members)
    let kind ← tagged StatementKind.all StatementKind.tag inner tag
    let parts ← decodeMembers kind members {}
    parts.build kind
  | .arr [] => .error (.mismatch (.missingField "type"))
  | .arr (tag :: items) => do
    let kind ← tagged StatementKind.all StatementKind.tag inner tag
    let parts ← decodeFields kind.fields items {}
    checkLength ("struct variant " ++ kind.title) kind.fields.length items.length
    parts.build kind
  | v => .error (.wrongType v "internally tagged enum Statement")

/-- the fields among the members of an object -/
def decodeMembers (kind : StatementKind) : List (String × Json) → Parts → Except ReadError Parts
  | [], p => .ok p
  | (key, v) :: rest, p => do
    if key ∈ kind.fields then
      let p ← p.read key v fun _ => decodeBlock v
      decodeMembers kind rest p
    else decodeMembers kind rest p

/-- the fields among the items of an array -/
def decodeFields : List String → List Json → Parts → Except ReadError Parts
  | key :: fields, v :: rest, p => do
    let p ← p.read key v fun _ => decodeBlock v
    decodeFields fields rest p
  | _, _, p => .ok p

/-- a block: an object with a body or an array with nothing but the body -/
def decodeBlock : Json → Except ReadError (List Statement)
  | .obj members => do
    let body ← decodeBlockMembers members none
    required "body" body
  | .arr [] => .error (.mismatch (.wrongLength 0 "struct Block with 1 element"))
  | .arr (body :: rest) => do
    let body ← decodeBody true body
    checkLength "struct Block" 1 (rest.length + 1)
    return body
  | v => .error (.wrongType v "struct Block")

/-- the body among the members of an object -/
def decodeBlockMembers : List (String × Json) → Option (List Statement) → Except ReadError (Option (List Statement))
  | [], body => .ok body
  | (key, v) :: rest, body => do
    if key = "body" then decodeBlockMembers rest (some (← decodeBody true v))
    else decodeBlockMembers rest body

/-- a list of statements -/
def decodeBody (inner : Bool) : Json → Except ReadError (List Statement)
  | .arr items => decodeItems inner items
  | v => .error (.wrongType v "a sequence")

/-- the statements of a list, one by one -/
def decodeItems (inner : Bool) : List Json → Except ReadError (List Statement)
  | [] => .ok []
  | v :: rest => do
    let s ← decode inner v
    return s :: (← decodeItems inner rest)

end

end Statement

/-! ## Programs -/

namespace Program

/-- A program: an object with a body or an array with nothing but the body. Its tag is ignored. -/
def decode : Json → Except ReadError Program
  | .obj members => do
    let body ← (Json.get? "body" members).mapM (Statement.decodeBody false)
    return ⟨← required "body" body⟩
  | .arr [] => .error (.mismatch (.wrongLength 0 "struct Program with 1 element"))
  | .arr (body :: rest) => do
    let body ← Statement.decodeBody false body
    if rest.isEmpty then return ⟨body⟩
    else throw (.mismatch (.wrongLength (rest.length + 1) "fewer elements in array"))
  | v => .error (.wrongType v "struct Program")

/-- the program that a text holds -/
def parse (s : String) : Except ReadError Program :=
  match Json.parse? s with
  | some v => decode v
  | none => .error .malformed

end Program

/-! ## Unknown tags -/

namespace Json

mutual

/-- The first tag in a value that names no kind, an object before what is inside it. Nothing inside a literal counts. -/
def unknownTag? : Json → Option String
  | .obj members =>
    match get? "type" members with
    | some (.str tag) =>
      if tag ∉ knownTags then some tag
      else if tag = "Literal" then none
      else unknownTagMembers? members
    | _ => unknownTagMembers? members
  | .arr items => unknownTagItems? items
  | _ => none

/-- the first in the items of an array -/
def unknownTagItems? : List Json → Option String
  | [] => none
  | v :: rest => (unknownTag? v).or (unknownTagItems? rest)

/-- the first in the members of an object -/
def unknownTagMembers? : List (String × Json) → Option String
  | [] => none
  | (_, v) :: rest => (unknownTag? v).or (unknownTagMembers? rest)

end

end Json

end Flowchart
