import Weir.Command.Request

/-!
# Command lines

`readLine` turns the words of a command line into a `Request`. A word is an option, the value of
the option before it, a verb or a program. The value of an option is looked at only when the next
option or program begins or the words end, so that an unknown option is reported before a bad value
in front of it.
-/

namespace Weir.Command

/-- Why a command line asks for no work. -/
inductive Stop where
  | help
  | version
  | usage (reason : UsageError)
  deriving DecidableEq

/-- What has been read of the words before a verb, or of those after it. -/
structure Reader where
  verb : Option Verb
  values : Values := {}
  /-- A parameter that waits for its value, or whose value waits to be looked at. -/
  pending : Option (Parameter × Option String) := none
  /-- Whether all further words are no options. -/
  optionsEnded : Bool := false
  /-- Whether more is to be written down on the way. -/
  verbose : Bool := false

namespace Reader

/-- Gives the pending parameter its value. -/
def settle (r : Reader) : Except Stop Reader :=
  match r.pending with
  | none => .ok r
  | some (p, text) =>
    match r.values.assign p text with
    | .ok values => .ok { r with values, pending := none }
    | .error reason => .error (.usage reason)

/-- Leaves a parameter pending, after the one that was. -/
def await (r : Reader) (p : Parameter) (text : Option String) : Except Stop Reader := do
  let r ← r.settle
  return { r with pending := some (p, text) }

/-- Takes a flag. -/
def takeFlag (r : Reader) (flag : Flag) : Except Stop Reader := do
  let r ← r.settle
  match flag with
  | .verbose => return { r with verbose := true }
  | .help => throw .help
  | .version => throw .version

/-- Takes a cluster of short flags. -/
def takeShort (r : Reader) : List Char → Except Stop Reader
  | [] => .ok r
  | c :: cs => do
    match Flag.ofShort? r.verb c with
    | none => throw (.usage (.unexpected ("-" ++ c.toString)))
    | some flag => takeShort (← r.takeFlag flag) cs

/-- Takes a long option with the value attached to it, if there is one. -/
def takeLong (r : Reader) (name : String) (attached : Option String) : Except Stop Reader := do
  match Parameter.ofOption? r.verb name, Flag.ofLong? r.verb name, attached with
  | some p, _, none => r.await p none
  | some p, _, some text => (← r.await p (some text)).settle
  | none, some flag, none => r.takeFlag flag
  | none, some flag, some value => throw (.usage (.unexpectedValue flag.usage value))
  | none, none, _ => throw (.usage (.unexpected ("--" ++ name)))

/-- The name of a long option and the value attached to it by an equals sign. -/
def splitOption (cs : List Char) : String × Option String :=
  let name := String.ofList (cs.takeWhile (· ≠ '='))
  match cs.dropWhile (· ≠ '=') with
  | [] => (name, none)
  | _ :: value => (name, some (String.ofList value))

/-- Takes an option or the value of one; nothing is returned for any other word. Arguments are
taken whatever they look like. -/
def takeOption? (r : Reader) (word : String) : Except Stop (Option Reader) := do
  if r.optionsEnded then return none
  match r.pending, word.toList with
  | some (.argument, none), _ => return some { r with pending := some (.argument, some word) }
  | _, ['-', '-'] => return some { r with optionsEnded := true }
  | _, '-' :: '-' :: cs =>
    let (name, attached) := splitOption cs
    return some (← r.takeLong name attached)
  | _, '-' :: c :: cs => return some (← r.takeShort (c :: cs))
  | some (p, none), _ => return some { r with pending := some (p, some word) }
  | _, _ => return none

/-- Reads the words after a verb, among them one program. -/
def readAll (r : Reader) : List String → Except Stop Reader
  | [] => do
    let r ← r.settle
    if r.values.has .program then return r else throw (.usage .missingProgram)
  | word :: words => do
    match ← r.takeOption? word with
    | some r => readAll r words
    | none =>
      if r.values.has .program || r.pending.any (·.1 = .program) then
        throw (.usage (.unexpected word))
      else readAll (← r.await .program (some word)) words

end Reader

/-- Fuel for a run if no other limit is given. -/
def defaultFuel : Nat := 1000000

/-- The request for a verb with its values, with the pointer width given before the verb. -/
def Values.request (v : Values) (verb : Verb) (width : Option Source.PointerWidth) : Request where
  width := (v.width <|> width).getD .w32
  program := v.program.getD ""
  source := v.source
  action := match verb with
    | .lower => .lower
    | .check => .check
    | .run => .run (v.entry.getD "main") v.args (v.fuel.getD defaultFuel)

/-- Whether a word names a command: a verb or help. -/
def isCommandName (word : String) : Bool := (Verb.ofName? word).isSome || word = "help"

/-- Reads the words after the help command. There can be one command that help is asked for; no
command has commands of its own. -/
def readHelp : List String → Stop
  | [] => .help
  | word :: words =>
    if isCommandName word then
      match words with
      | [] => .help
      | next :: _ => .usage (.unknownVerb next)
    else .usage (.unknownVerb word)

/-- Reads the words up to a verb and those after it. -/
def readVerb (r : Reader) : List String → Except Stop Request
  | [] => do
    let r ← r.settle
    throw (.usage (if r.verbose || r.values.has .pointerWidth then .missingVerb else .nothingGiven))
  | word :: words => do
    match ← r.takeOption? word with
    | some r => readVerb r words
    | none =>
      if r.optionsEnded && isCommandName word then throw (.usage (.unexpected word))
      if word = "help" then throw (readHelp words)
      match Verb.ofName? word with
      | none => throw (.usage (.unknownVerb word))
      | some verb =>
        let inner ← Reader.readAll { verb := some verb } words
        let outer ← r.settle
        return inner.values.request verb outer.values.width

/-- Reads a command line. -/
def readLine (words : List String) : Except Stop Request := readVerb { verb := none } words

end Weir.Command
