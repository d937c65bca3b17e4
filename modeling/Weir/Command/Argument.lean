import Weir.Code.Module

/-!
# Arguments for an entry function

Arguments given as text are read by the slots of the parameters. `readInteger` goes from left to
right and reports the first thing that is wrong: a character that is no digit, or a digit that
takes the number out of range.
-/

namespace Weir.Command

open Weir.Code

/-- What is wrong with the text of a number. -/
inductive NumberFault where
  | emptyInteger
  | invalidDigit
  | tooLarge
  | tooSmall
  | emptyFloat
  | invalidFloat
  deriving DecidableEq

/-- The message for a fault. -/
def NumberFault.message : NumberFault → String
  | emptyInteger => "cannot parse integer from empty string"
  | invalidDigit => "invalid digit found in string"
  | tooLarge => "number too large to fit in target type"
  | tooSmall => "number too small to fit in target type"
  | emptyFloat => "cannot parse float from empty string"
  | invalidFloat => "invalid float literal"

/-- Appends digits to a number as long as it stays between the bounds. -/
def readDigits (least greatest : Int) (negative : Bool) : Int → List Char → Except NumberFault Int
  | n, [] => .ok n
  | n, c :: cs =>
    if c.isDigit then
      let digit : Int := Decimal.ofDigits [c]
      let m := if negative then 10 * n - digit else 10 * n + digit
      if m < least then .error .tooSmall
      else if greatest < m then .error .tooLarge
      else readDigits least greatest negative m cs
    else .error .invalidDigit

/-- Reads an integer between the bounds: an optional sign, then at least one digit. A minus is
a sign only where negative numbers are in range. -/
def readInteger (least greatest : Int) (text : String) : Except NumberFault Int :=
  match text.toList with
  | [] => .error .emptyInteger
  | ['+'] | ['-'] => .error .invalidDigit
  | '+' :: cs => readDigits least greatest false 0 cs
  | '-' :: cs =>
    if least < 0 then readDigits least greatest true 0 cs else .error .invalidDigit
  | cs => readDigits least greatest false 0 cs

/-- Reads a signed integer of the given width. -/
def readSigned (w : Nat) (text : String) : Except NumberFault (BitVec w) :=
  (readInteger (BitVec.intMin w).toInt (BitVec.intMax w).toInt text).map (BitVec.ofInt w)

/-- Reads a floating-point number. -/
def readFloat {f : Format} (text : String) : Except NumberFault (Binary f) :=
  if text.isEmpty then .error .emptyFloat
  else match Binary.ofText? text with
    | some x => .ok x
    | none => .error .invalidFloat

/-- Reads a value of a slot; there is none without a slot. -/
def readValue? (slot : Slot) (text : String) : Option (Except NumberFault Value) :=
  match slot with
  | .none => none
  | .i32 => some ((readSigned 32 text).map .i32)
  | .i64 => some ((readSigned 64 text).map .i64)
  | .f32 => some ((readFloat text).map .f32)
  | .f64 => some ((readFloat text).map .f64)

/-- What is wrong with the arguments for a function. -/
inductive ArgumentError where
  | wrongCount (function : String) (expected found : Nat)
  | noType (function : String) (index : Nat)
  | invalid (function : String) (index : Nat) (text : String) (slot : Slot) (fault : NumberFault)
  deriving DecidableEq

/-- The message for an error, from the outermost cause inward. -/
def ArgumentError.message : ArgumentError → String
  | wrongCount function expected found =>
    "function `" ++ function ++ "` takes " ++ toString expected ++ " argument(s), " ++
      toString found ++ " given"
  | noType function index =>
    "argument " ++ toString index ++ " of `" ++ function ++ "`: parameters cannot have no type"
  | invalid function index text slot fault =>
    "argument " ++ toString index ++ " of `" ++ function ++ "`: `" ++ text ++ "` is not an " ++
      slot.name ++ ": " ++ fault.message

/-- Reads arguments from the one with the given index on. -/
def readArgumentsFrom (function : String) (index : Nat) :
    List Slot → List String → Except ArgumentError (List Value)
  | slot :: slots, text :: texts =>
    match readValue? slot text with
    | none => .error (.noType function index)
    | some (.error fault) => .error (.invalid function index text slot fault)
    | some (.ok v) => (readArgumentsFrom function (index + 1) slots texts).map (v :: ·)
  | _, _ => .ok []

/-- Reads the arguments for a function with the given parameters. -/
def readArguments (function : String) (params : List Slot) (texts : List String) :
    Except ArgumentError (List Value) :=
  if params.length = texts.length then readArgumentsFrom function 0 params texts
  else .error (.wrongCount function params.length texts.length)

end Weir.Command
