/-
The program: the command line on real files.
-/
import Flowchart.CommandLine
import Flowchart.Files

namespace Flowchart

/-- the text of a file, or why it cannot be read -/
def readText (path : String) : IO (Except FileFault String) := do
  if let some fault := Files.pathFault? path then return .error fault
  try
    let content ← IO.FS.readBinFile path
    match String.fromUTF8? content with
    | some s => return .ok s
    | none => return .error .notText
  catch e =>
    match e with
    | .inappropriateType _ 21 _ => return .error .isDirectory
    | .inappropriateType .. => return .error .notDirectory
    | .invalidArgument .. => return .error .nameTooLong
    | _ => return .error .notFound

/-- run a command line: print what it leaves behind and give its exit code -/
def runArguments (arguments : List String) : IO UInt32 := do
  let invocation := CommandLine.parse? arguments
  let content ← match invocation with
    | some (.compile path _ _) => readText path
    | some (.render path _) => readText path
    | _ => pure (.error .notFound)
  let result := match invocation with
    | some i => i.run fun _ => content
    | none => CommandLine.misused
  IO.print result.output
  IO.eprint result.errors
  return result.exitCode.toUInt32

end Flowchart

def main (arguments : List String) : IO UInt32 := Flowchart.runArguments arguments
