/-
What the properties of a node say.

Each kind of node that adds something to the tree has its properties read here, in a fixed order; the first that is
missing or ill-formed is the error. Every text that is read as a formula is logged.
-/
import Flowchart.Document.Basic
import Flowchart.Error
import Flowchart.Event
import Flowchart.Options

namespace Flowchart

/-- what a logged computation logs for the texts that are read -/
def parsed {ε : Type} (texts : List (List Char)) : Logged ε Unit :=
  .log (texts.map fun s => .parsing (String.ofList s))

namespace Node

/-- the first of these properties that the node has; it must have one -/
def required (n : Node) (name : String) (others : List String) : Except Error Json :=
  match n.property? (name :: others) with
  | some v => .ok v
  | none => .error (.graph (.missingProperty n.id name))

/-- a property of the node that cannot be read -/
def refuse (n : Node) (name : String) (cause : Unparsable) : Error := .property n.id name cause

/-- the expression in a property -/
def expression (n : Node) (name : String) : Logged Error Expression := do
  let v ← n.required name []
  parsed (Formula.textsOfJson v)
  ((Formula.ofJson v).mapError (n.refuse name) : Except Error Expression)

/-- the variable that a property names -/
def variableName (n : Node) (name : String) (others : List String) : Except Error String := do
  let v ← n.required name others
  match Formula.boundName? v with
  | some s => return s
  | none => throw (n.refuse name (.ofJson v .notVariable))

/-! ## Assignments -/

/-- the statement of a node that sets a variable -/
def assignment (n : Node) : Logged Error Statement := do
  let key ← n.required "key" []
  parsed (Formula.textsOfTarget key)
  let left ← ((Formula.target key).mapError (n.refuse "key") : Except Error Expression)
  let right ← n.expression "value"
  return .expression (.assignment left right)

/-! ## Calls -/

/-- the method of a call: `get` unless a name is given -/
def method (n : Node) : Except Error String :=
  match n.property? ["method"] with
  | none => .ok "get"
  | some .null => .ok "get"
  | some (.str s) =>
    if Text.isName (Text.trim s.toList) then .ok (String.ofList (Text.trim s.toList))
    else .error (n.refuse "method" (.ofJson (.str s) .notMethod))
  | some v => .error (n.refuse "method" (.ofJson v .notMethod))

/-- a parameter of a call: an object with a key and a value, or an array of the two -/
def parameter? : Json → Option (String × Json)
  | .obj members =>
    match Json.get? "key" members, Json.get? "value" members with
    | some (.str key), some value => some (key, value)
    | _, _ => none
  | .arr [.str key, value] => some (key, value)
  | _ => none

/-- the parameters of a call: a list, or none -/
def parameters (n : Node) : Except Error (List (String × Json)) :=
  match n.property? ["params"] with
  | none => .ok []
  | some .null => .ok []
  | some (.arr items) =>
    match items.mapM parameter? with
    | some ps => .ok ps
    | none => .error (n.refuse "params" (.ofJson (.arr items) .notParameters))
  | some v => .error (n.refuse "params" (.ofJson v .notParameters))

/-- a parameter with its value read as an expression -/
def argument (n : Node) (p : String × Json) : Logged Error (String × Expression) := do
  parsed (Formula.textsOfJson p.2)
  let value ← ((Formula.ofJson p.2).mapError (n.refuse ("params." ++ p.1)) : Except Error Expression)
  return (p.1, value)

/-- the call that a client makes: the data of the awaited response -/
def call (client method : String) (url : Json) (properties : List (String × Expression)) : Expression :=
  .member (.asyncCall (.member (.identifier client) method) [.literal url, .object properties]) "data"

/-- the statement of a node that calls a service -/
def httpCall (n : Node) (client : String) : Logged Error Statement := do
  let url ← n.required "url" []
  let method ← n.method
  let parameters ← n.parameters
  let properties ← parameters.mapM n.argument
  let name ← n.variableName "saveAs" ["saveResponseAsVariableName"]
  return .declaration name (call client method url properties)

/-! ## Loops -/

/-- the list that a loop runs over and the variable that holds the current item -/
def loopHead (n : Node) : Logged Error (Expression × String) := do
  let iterable ← n.expression "loopArray"
  let item ← n.variableName "currentItemName" ["currentItem"]
  return (iterable, item)

end Node

end Flowchart
