import Weir.Code.Text
import Weir.Command.Files
import Weir.Command.Line
import Weir.Lowering.Program
import Weir.Machine.Session
import Weir.Report
import Weir.Source.Encoding
import Weir.Terminal

/-!
# Carrying out requests

`execute` carries out a request over the contents of files, and `respond` a whole command line. The
`Outcome` is what the program leaves behind: its exit code and what it writes.
-/

namespace Weir.Command

open Weir.Code (Module Value)
open Weir.Lowering (Lowered lowerProgram)
open Weir.Machine (Session Trap)

/-- Why a request cannot be carried out. -/
inductive Failure where
  | unreadableProgram (path : String) (fault : FileFault)
  | unreadableSource (path : String) (fault : FileFault)
  | invalidProgram (path : String)
  | lowering (path : String) (reason : Lowering.Error)
  | noFunction (name : String)
  | arguments (reason : ArgumentError)
  | binding (reason : Trap)
  | trapped (function : String) (reason : Trap)
  deriving DecidableEq

/-- The message for a failure. -/
def Failure.message : Failure → String
  | unreadableProgram path fault => "failed to read program " ++ path ++ ": " ++ fault.message
  | unreadableSource path fault => "failed to read source " ++ path ++ ": " ++ fault.message
  | invalidProgram path => path ++ " is not a valid program"
  | lowering path reason => "internal error while lowering " ++ path ++ ": " ++ reason.message
  | noFunction name => "no function named `" ++ name ++ "`"
  | arguments reason => reason.message
  | binding reason => reason.message
  | trapped function reason => "`" ++ function ++ "` trapped: " ++ reason.message

/-- What the program leaves behind. -/
structure Outcome where
  code : Nat
  output : String := ""
  errors : String := ""
  deriving DecidableEq

/-- The outcome of a failure, after what was written before it. -/
def Failure.outcome (f : Failure) (output errors : String) : Outcome :=
  ⟨1, output, errors ++ "Error: " ++ f.message ++ "\n"⟩

/-- A lowered program, and its diagnostics as text. -/
structure Prepared where
  lowered : Lowered
  diagnostics : String

/-- Reads and lowers the program of a request. Diagnostics name the source if there is one. -/
def prepare (files : Files) (r : Request) : Except Failure Prepared := do
  let text ← (files r.program).mapError (.unreadableProgram r.program)
  let program ← match Source.Program.ofText? text with
    | some program => pure program
    | none => throw (.invalidProgram r.program)
  let source ← match r.source with
    | some path => ((files path).mapError (.unreadableSource path)).map some
    | none => pure none
  let lowered ← (lowerProgram { width := r.width } program).mapError (.lowering r.program)
  let file := r.source.getD r.program
  return ⟨lowered, String.join (lowered.reports.map (Report.render file source))⟩

/-- Runs a function with printing hosts; the log and the value are the output. A run spends fuel on
all that the clock counts, so a clock longer than the fuel is never used up. -/
def runFunction (m : Module) (entry : String) (args : List String) (fuel : Nat) : Outcome :=
  match m.functions.find? (·.name = entry) with
  | none => (Failure.noFunction entry).outcome "" ""
  | some f =>
    match readArguments f.name f.paramSlots args with
    | .error reason => (Failure.arguments reason).outcome "" ""
    | .ok values =>
      match ((Session.ofModule m).withFuel fuel).bindPrinting with
      | .error reason => (Failure.binding reason).outcome "" ""
      | .ok session =>
        match session.invoke? (fuel + 1) entry values with
        | none => (Failure.trapped entry .outOfFuel).outcome "" ""
        | some (.error reason, s) => (Failure.trapped entry reason).outcome s.state.world.log ""
        | some (.ok none, s) => { code := 0, output := s.state.world.log }
        | some (.ok (some v), s) => { code := 0, output := s.state.world.log ++ v.toText ++ "\n" }

/-- Carries out a request. A program with diagnostics is not run. -/
def execute (files : Files) (r : Request) : Outcome :=
  match prepare files r with
  | .error failure => failure.outcome "" ""
  | .ok ⟨lowered, diagnostics⟩ =>
    let count := lowered.reports.length
    let code := if count = 0 then 0 else 1
    match r.action with
    | .lower => ⟨code, lowered.module.toText, diagnostics⟩
    | .check =>
      let verdict := if count = 0 then "ok" else toString count ++ " error(s)"
      ⟨code, r.program ++ ": " ++ verdict ++ "\n", diagnostics⟩
    | .run entry args fuel =>
      if count = 0 then runFunction lowered.module entry args fuel else ⟨code, "", diagnostics⟩

/-- The name and the version of the program. -/
def version : String := "ripple 0.1.0"

/-- Answers a command line. Only what the request names is read. Messages about the command line
are written without control sequences, those in its words included. -/
def respond (files : Files) (words : List String) : Outcome :=
  match readLine words with
  | .error .help => { code := 0, output := overview }
  | .error .version => { code := 0, output := version ++ "\n" }
  | .error (.usage reason) => { code := 2, errors := Terminal.plain reason.message }
  | .ok request => execute files request

end Weir.Command
