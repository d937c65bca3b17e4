import Weir.Command.Argument
import Weir.Source.Type
import Weir.Terminal

/-!
# Requests

What a command line can ask for, and what can be wrong with one. A `Parameter` is something with
a value; `Values` collects the values read so far, and `Values.assign` reads one more.
-/

namespace Weir.Command

open Weir.Source (PointerWidth)

/-- What to do with the lowered program. -/
inductive Action where
  | lower
  | check
  | run (entry : String) (args : List String) (fuel : Nat)
  deriving DecidableEq

/-- A complete request. -/
structure Request where
  width : PointerWidth
  program : String
  source : Option String
  action : Action
  deriving DecidableEq

/-- The name of an action on the command line. -/
inductive Verb where
  | lower
  | run
  | check
  deriving DecidableEq, Repr

/-- The verb with a given name. -/
def Verb.ofName? : String → Option Verb
  | "lower" => some lower
  | "run" => some run
  | "check" => some check
  | _ => none

/-- What takes a value on the command line. -/
inductive Parameter where
  | program
  | pointerWidth
  | source
  | entry
  | argument
  | fuel
  deriving DecidableEq, Repr

namespace Parameter

/-- How messages name a parameter. -/
def usage : Parameter → String
  | program => "<PROGRAM>"
  | pointerWidth => "--pointer-width <POINTER_WIDTH>"
  | source => "--source <SOURCE>"
  | entry => "--entry <ENTRY>"
  | argument => "--arg <ARGS>"
  | fuel => "--fuel <FUEL>"

/-- The parameter that an option name stands for, after a verb or before there is one. -/
def ofOption? (verb : Option Verb) (name : String) : Option Parameter :=
  match name, verb with
  | "pointer-width", _ => some pointerWidth
  | "source", some _ => some source
  | "entry", some .run => some entry
  | "arg", some .run => some argument
  | "fuel", some .run => some fuel
  | _, _ => none

end Parameter

/-- An option without a value. -/
inductive Flag where
  | verbose
  | help
  | version
  deriving DecidableEq, Repr

namespace Flag

/-- How messages name a flag; the dots say that it may be given again. -/
def usage : Flag → String
  | verbose => "--verbose..."
  | help => "--help"
  | version => "--version"

/-- The flag with a long name. After a verb there is none for the version. -/
def ofLong? (verb : Option Verb) (name : String) : Option Flag :=
  match name, verb with
  | "verbose", _ => some verbose
  | "help", _ => some help
  | "version", none => some version
  | _, _ => none

/-- The flag with a short name. -/
def ofShort? (verb : Option Verb) (name : Char) : Option Flag :=
  match name, verb with
  | 'v', _ => some verbose
  | 'h', _ => some help
  | 'V', none => some version
  | _, _ => none

end Flag

/-- What is wrong with a command line. -/
inductive UsageError where
  | nothingGiven
  | missingVerb
  | unknownVerb (text : String)
  | unexpected (text : String)
  | unexpectedValue (option value : String)
  | missingValue (parameter : Parameter)
  | invalidValue (parameter : Parameter) (value reason : String)
  | repeated (parameter : Parameter)
  | missingProgram
  deriving DecidableEq

/-- An overview of the commands. -/
def overview : String :=
  "Lowers TypeScript-flavoured statements onto a structured stack-machine IR\n\n" ++
  "Usage: ripple [OPTIONS] <COMMAND>\n\n" ++
  "Commands:\n" ++
  "  lower  Lower a program and print the IR\n" ++
  "  run    Lower a program and run one of its functions\n" ++
  "  check  Lower a program and report diagnostics only\n" ++
  "  help   Print this message or the help of the given subcommand(s)\n\n" ++
  "Options:\n" ++
  "  -v, --verbose...                     " ++
  "Enable verbose logging (use multiple times for increased verbosity)\n" ++
  "      --pointer-width <POINTER_WIDTH>  " ++
  "Pointer width used to resolve `usize` [default: 32]\n" ++
  "  -h, --help                           Print help\n" ++
  "  -V, --version                        Print version\n"

/-- What was given or can be given, as messages quote it. -/
def quote (text : String) : String := "'" ++ Terminal.emphasize text ++ "'"

/-- A message about a command line that cannot be read. -/
def complain (reason : String) : String :=
  Terminal.emphasize "error:" ++ " " ++ reason ++ "\n\nFor more information, try " ++
    quote "--help" ++ ".\n"

/-- The message for an error, as a terminal is to show it. -/
def UsageError.message : UsageError → String
  | nothingGiven => overview
  | missingVerb => complain (quote "ripple" ++ " requires a subcommand but one was not provided")
  | unknownVerb text => complain ("unrecognized subcommand " ++ quote text)
  | unexpected text => complain ("unexpected argument " ++ quote text ++ " found")
  | unexpectedValue option value =>
    complain ("unexpected value " ++ quote value ++ " for " ++ quote option ++
      " found; no more were expected")
  | missingValue p =>
    complain ("a value is required for " ++ quote p.usage ++ " but none was supplied")
  | invalidValue p value reason =>
    complain ("invalid value " ++ quote value ++ " for " ++ quote p.usage ++ ": " ++ reason)
  | repeated p => complain ("the argument " ++ quote p.usage ++ " cannot be used multiple times")
  | missingProgram =>
    complain ("the following required arguments were not provided:\n  " ++
      Terminal.emphasize Parameter.program.usage)

/-- The values given on a command line. -/
structure Values where
  program : Option String := none
  width : Option PointerWidth := none
  source : Option String := none
  entry : Option String := none
  args : List String := []
  fuel : Option Nat := none
  deriving DecidableEq

/-- Reads a pointer width; the error is the reason for refusing it. -/
def readWidth (text : String) : Except String PointerWidth :=
  match readInteger 0 4294967295 text with
  | .error _ => .error ("`" ++ text ++ "` is not a number")
  | .ok n =>
    match PointerWidth.ofBits? n.toNat with
    | some w => .ok w
    | none => .error ("unsupported pointer width " ++ toString n ++ ", expected 32 or 64")

/-- Reads a limit for fuel; the error is the reason for refusing it. -/
def readFuel (text : String) : Except String Nat :=
  match readInteger 0 18446744073709551615 text with
  | .error fault => .error fault.message
  | .ok n => .ok n.toNat

namespace Values

/-- Whether a parameter has its value. Any number of arguments may be given. -/
def has (v : Values) : Parameter → Bool
  | .program => v.program.isSome
  | .pointerWidth => v.width.isSome
  | .source => v.source.isSome
  | .entry => v.entry.isSome
  | .argument => false
  | .fuel => v.fuel.isSome

/-- Reads the value of a parameter. File names cannot be empty. -/
def read (v : Values) (p : Parameter) (text : String) : Except UsageError Values :=
  let path (given : Values) : Except UsageError Values :=
    if text.isEmpty then .error (.missingValue p) else .ok given
  let refuse (reason : String) : Except UsageError Values := .error (.invalidValue p text reason)
  match p with
  | .program => path { v with program := some text }
  | .source => path { v with source := some text }
  | .entry => .ok { v with entry := some text }
  | .argument => .ok { v with args := v.args ++ [text] }
  | .pointerWidth => match readWidth text with
    | .ok w => .ok { v with width := some w }
    | .error reason => refuse reason
  | .fuel => match readFuel text with
    | .ok n => .ok { v with fuel := some n }
    | .error reason => refuse reason

/-- Gives a parameter its value, if one was supplied and the parameter has none yet. -/
def assign (v : Values) (p : Parameter) (text : Option String) : Except UsageError Values :=
  match text with
  | none => .error (.missingValue p)
  | some text => if v.has p then .error (.repeated p) else v.read p text

end Values

end Weir.Command
