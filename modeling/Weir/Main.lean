import Weir.Command.Outcome

/-!
# The command line program

Reads the files that a command line names and writes what `Command.execute` answers.
-/

namespace Weir

open Weir.Command (FileFault)

/-- Reads a file as text. -/
def readText (path : String) : IO (Except FileFault String) := do
  try
    let bytes ← IO.FS.readBinFile path
    match String.fromUTF8? bytes with
    | some text => return .ok text
    | none => return .error .notText
  catch e => match e with
    | .permissionDenied .. => return .error .denied
    | .invalidArgument .. => return .error .nameTooLong
    | .inappropriateType _ code _ =>
      return .error (if code = 21 then .directory else .notDirectory)
    | _ => return .error .missing

/-- Answers a command line. -/
def answer (words : List String) : IO UInt32 := do
  let paths := match Command.readLine words with
    | .ok request => request.program :: request.source.toList
    | .error _ => []
  let contents ← paths.mapM fun path => do return (path, ← readText path)
  let files : Command.Files := fun path => (contents.lookup path).getD (.error .missing)
  let outcome := Command.respond files words
  IO.print outcome.output
  IO.eprint outcome.errors
  return outcome.code.toUInt32

end Weir

/-- Answers the command line. -/
def main (words : List String) : IO UInt32 := Weir.answer words
