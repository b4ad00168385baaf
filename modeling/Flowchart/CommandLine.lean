/-
The command line.

`compile PATH` compiles the flow in a file and prints its tree, in one of several formats, and then its source text.
`render PATH` prints the source text of the tree in a file. Options stand before or after the path: a value follows its
option, or is attached with `=`, or directly to the short form. After `--` there are no options. An option stands at
most once. Arguments are looked at from the left: a request for help is heard unless something before it is wrong, and
what follows it does not matter.
-/
import Flowchart.Compile

namespace Flowchart

/-- how the tree is printed -/
inductive TreeFormat where
  | json
  | pretty
  | tree
  | none
deriving DecidableEq, Repr

/-- what the command line asks for -/
inductive Invocation where
  | compile (path : String) (format : TreeFormat) (options : Options)
  | render (path : String) (options : RenderOptions)
  | help
deriving DecidableEq, Repr

/-- the text that explains the command line -/
def usage : String :=
  "Usage: compile PATH [-t FORMAT] [--function-name NAME] [--http-client NAME] [--indent WIDTH]\n" ++
  "               [--hoist-conditionals]\n" ++
  "       render PATH [--function-name NAME] [--indent WIDTH]\n"

namespace CommandLine

/-- an option of a command -/
structure Setting where
  name : String
  short : Option Char := none
  takesValue : Bool := true

/-- the settings of `compile` -/
def compileSettings : List Setting :=
  [⟨"tree", some 't', true⟩, ⟨"function-name", none, true⟩, ⟨"http-client", none, true⟩, ⟨"indent", none, true⟩,
   ⟨"hoist-conditionals", none, false⟩]

/-- the settings of `render` -/
def renderSettings : List Setting := [⟨"function-name", none, true⟩, ⟨"indent", none, true⟩]

/-- a part of the command line -/
inductive Argument where
  | plain (text : String)
  | setting (name value : String)
  | flag (name : String)
  | help
deriving DecidableEq, Repr

/-- An option as it is written: its setting and the value attached to it. None when there is no such setting. -/
def written? (settings : List Setting) : List Char → Option (Setting × Option String)
  | '-' :: '-' :: s =>
    let (name, value) := match Text.cut? ['='] s with
      | some (name, value) => (name, some (String.ofList value))
      | none => (s, none)
    (settings.find? fun x => x.name.toList = name).map (·, value)
  | '-' :: c :: s =>
    let value := match s with
      | [] => none
      | '=' :: value => some (String.ofList value)
      | value => some (String.ofList value)
    (settings.find? fun x => x.short = some c).map (·, value)
  | _ => none

/-- the text is an option and no value: it starts with `-` and is more than that -/
def isOption (s : String) : Bool :=
  match s.toList with
  | '-' :: _ :: _ => true
  | _ => false

/-- the text asks for help; what is attached to the short form does not matter -/
def isHelp (s : String) : Bool :=
  match s.toList with
  | '-' :: 'h' :: _ => true
  | _ => s = "--help"

/-- The parts of a command line up to a request for help. None when an option is unknown, lacks its value or has one
that it does not take. -/
def split (settings : List Setting) : List String → Option (List Argument)
  | [] => some []
  | a :: rest =>
    if a = "--" then some (rest.map .plain)
    else if isHelp a then some [.help]
    else if isOption a then
      match written? settings a.toList, rest with
      | some (x, none), rest =>
        if x.takesValue then
          match rest with
          | value :: rest =>
            if isOption value then none else (split settings rest).map (.setting x.name value :: ·)
          | [] => none
        else (split settings rest).map (.flag x.name :: ·)
      | some (x, some value), rest =>
        if x.takesValue then (split settings rest).map (.setting x.name value :: ·) else none
      | none, _ => none
    else (split settings rest).map (.plain a :: ·)

/-- the plain argument, if there is one; none when there are several -/
def path? (arguments : List Argument) : Option (Option String) :=
  match arguments.filterMap fun | .plain s => some s | _ => none with
  | [] => some none
  | [s] => some (some s)
  | _ => none

/-- the value of a setting: the default unless it stands there, and none when it stands there twice -/
def value? {α : Type} (name : String) (default : α) (read : String → Option α) (arguments : List Argument) : Option α :=
  match arguments.filterMap fun | .setting n v => if n = name then some v else none | _ => none with
  | [] => some default
  | [v] => read v
  | _ => none

/-- whether a flag stands there; none when it stands there twice -/
def flag? (name : String) (arguments : List Argument) : Option Bool :=
  match arguments.filter (· = .flag name) with
  | [] => some false
  | [_] => some true
  | _ => none

/-- the format with a name -/
def format? : String → Option TreeFormat
  | "json" => some .json
  | "pretty" => some .pretty
  | "tree" => some .tree
  | "none" => some .none
  | _ => Option.none

/-- a number that fits in 64 bits: digits, with a plus sign in front or none -/
def width? (s : String) : Option Nat :=
  let digits := match s.toList with
    | '+' :: digits => digits
    | digits => digits
  let n := Nat.ofDigitChars 10 digits 0
  if digits.isEmpty ∨ ¬digits.all Char.isDigit ∨ 0x10000000000000000 ≤ n then none else some n

/-- the arguments of `compile` -/
def compile? (arguments : List Argument) : Option Invocation := do
  let path ← path? arguments
  let format ← value? "tree" .json format? arguments
  let functionName ← value? "function-name" "flow" some arguments
  let httpClient ← value? "http-client" "axios" some arguments
  let indentWidth ← value? "indent" 2 width? arguments
  let hoisted ← flag? "hoist-conditionals" arguments
  if .help ∈ arguments then return .help
  return .compile (← path) format ⟨functionName, httpClient, indentWidth, if hoisted then .hoisted else .nested⟩

/-- the arguments of `render` -/
def render? (arguments : List Argument) : Option Invocation := do
  let path ← path? arguments
  let functionName ← value? "function-name" "flow" some arguments
  let indentWidth ← value? "indent" 2 width? arguments
  if .help ∈ arguments then return .help
  return .render (← path) ⟨functionName, indentWidth⟩

/-- the names of the commands -/
def commands : List String := ["compile", "render", "help"]

/-- What a command line asks for; none when it is used wrongly. Help can be asked for one command, by its name. -/
def parse? : List String → Option Invocation
  | "compile" :: rest => (split compileSettings rest).bind compile?
  | "render" :: rest => (split renderSettings rest).bind render?
  | ["help"] => some .help
  | ["help", command] => if command ∈ commands then some .help else none
  | first :: _ => if isHelp first then some .help else none
  | [] => none

/-- what a run leaves behind -/
structure Result where
  exitCode : Nat
  output : String := ""
  errors : String := ""
deriving DecidableEq, Repr

/-- the run of a command line that is used wrongly -/
def misused : Result := ⟨2, "", usage⟩

/-- a run that ends with an error -/
def failed (e : Error) : Result := ⟨e.exitCode, "", "\nError: " ++ e.message ++ "\n"⟩

/-- An indentation of this many characters fits in no text. -/
def indentLimit : Nat := 0x8000000000000000

/-- The run that prints `start` and then the source text of a program. It breaks off before it prints anything when a
line would have to be indented too far; lines of depth one come first. -/
def printed (start : String) (p : Program) (o : RenderOptions) : Result :=
  if indentLimit ≤ o.indentWidth ∧ ¬p.body.isEmpty then ⟨101, "", "\nError: the indentation is too wide\n"⟩
  else ⟨0, start ++ p.render o, ""⟩

/-- the tree of a program in a format, and a line break -/
def treeText (format : TreeFormat) (p : Program) : String :=
  match format with
  | .json => p.toJson.toText ++ "\n"
  | .pretty => p.toJson.toPrettyText ++ "\n"
  | .tree => p.view ++ "\n"
  | .none => ""

end CommandLine

open CommandLine

/-- the run of an invocation, given how the file at a path reads -/
def Invocation.run (read : String → Except FileFault String) : Invocation → CommandLine.Result
  | .help => ⟨0, usage, ""⟩
  | .compile path format options =>
    let built : Except Error Program := do
      let text ← (read path).mapError (.file path)
      let document ← Document.load text
      (document.build options).outcome
    match built with
    | .ok p => printed (treeText format p) p options.render
    | .error e => failed e
  | .render path options =>
    let loaded : Except Error Program := do
      let text ← (read path).mapError (.file path)
      Program.load text
    match loaded with
    | .ok p => printed "" p options
    | .error e => failed e

/-- the run of a command line -/
def CommandLine.run (read : String → Except FileFault String) (arguments : List String) : CommandLine.Result :=
  match parse? arguments with
  | some invocation => invocation.run read
  | none => misused

end Flowchart
