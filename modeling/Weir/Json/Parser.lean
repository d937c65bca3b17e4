import Weir.Json.Token

/-!
# Reading JSON text

`Json.parse?` reads a whole text. The tokens are taken one at a time over a stack of the arrays and
objects that are still open, so a text may nest as deep as it likes.
-/

namespace Weir.Json

namespace Parser

/-- An open container: its items or fields in reverse and, in an object, the key whose value comes
next. Keys without a value are kept until the object closes. -/
inductive Frame where
  | array (items : List Json)
  | object (fields : List (Option String × Json)) (key : Option String)

/-- What may come next. -/
inductive Expected where
  | value
  | valueOrClose
  | key
  | keyOrClose
  | colon (key : Option String)
  | separator
  | nothing (result : Json)

/-- The reader: open containers from the innermost outward,
and what may come next. -/
structure State where
  stack : List Frame := []
  expected : Expected := .value

/-- An object with the given fields in reverse; one with a key that has no value is unreadable. -/
def close (fields : List (Option String × Json)) : Json :=
  match fields.reverse.mapM fun (key, j) => key.map (·, j) with
  | some fields => .object fields
  | none => .unreadable

/-- Puts a finished value where it belongs. -/
def supply (j : Json) : List Frame → State
  | [] => { expected := .nothing j }
  | .array items :: stack => { stack := .array (j :: items) :: stack, expected := .separator }
  | .object fields key :: stack =>
    { stack := .object ((key, j) :: fields) none :: stack, expected := .separator }

/-- Opens a container or takes a scalar. -/
def beginValue (stack : List Frame) : Token → Option State
  | .openArray => some { stack := .array [] :: stack, expected := .valueOrClose }
  | .openObject => some { stack := .object [] none :: stack, expected := .keyOrClose }
  | .scalar j => some (supply j stack)
  | .string (some s) => some (supply (.string s) stack)
  | .string none => some (supply .unreadable stack)
  | _ => none

/-- Closes the innermost container with the matching bracket. -/
def endValue : List Frame → Token → Option State
  | .array items :: stack, .closeArray => some (supply (.array items.reverse) stack)
  | .object fields _ :: stack, .closeObject => some (supply (close fields) stack)
  | _, _ => none

/-- Reads one token. -/
def step? (s : State) (token : Token) : Option State :=
  match s.expected, token with
  | .value, _ => beginValue s.stack token
  | .valueOrClose, .closeArray => endValue s.stack token
  | .valueOrClose, _ => beginValue s.stack token
  | .keyOrClose, .closeObject => endValue s.stack token
  | .keyOrClose, .string key | .key, .string key => some { s with expected := .colon key }
  | .colon key, .colon =>
    match s.stack with
    | .object fields _ :: stack =>
      some { s with stack := .object fields key :: stack, expected := .value }
    | _ => none
  | .separator, .comma =>
    match s.stack with
    | .array _ :: _ => some { s with expected := .value }
    | .object _ _ :: _ => some { s with expected := .key }
    | [] => none
  | .separator, _ => endValue s.stack token
  | _, _ => none

end Parser

/-- Reads a JSON text: one value with nothing but blanks around it. -/
def parse? (text : String) : Option Json := do
  let tokens ← Token.scan? text.toList
  let s ← tokens.foldlM Parser.step? {}
  match s.expected with
  | .nothing j => some j
  | _ => none

end Weir.Json
