import Weir.Code.Node

/-!
# Traps

A `Trap` is the reason why a run ended without a result.
-/

namespace Weir.Machine

open Weir.Code

/-- Why a run was cut short. -/
inductive Trap where
  | unreachable
  | outOfFuel
  | integerDivideByZero
  | integerOverflow
  | unknownFunction (name : String)
  | missingHost (name : String)
  | arityMismatch (name : String) (expected found : Nat)
  | typeMismatch (expected found : Slot)
  | missingValue
  | unknownLocal (index : Nat)
  | unboundLabel (label : Label)
  | callStackExhausted
  | host (reason : String)
  deriving DecidableEq

/-- The message for a trap. -/
def Trap.message : Trap → String
  | unreachable => "unreachable executed"
  | outOfFuel => "out of fuel"
  | integerDivideByZero => "integer divide by zero"
  | integerOverflow => "integer overflow"
  | unknownFunction name => "unknown function `" ++ name ++ "`"
  | missingHost name => "no host function registered for import `" ++ name ++ "`"
  | arityMismatch name expected found =>
    "`" ++ name ++ "` expects " ++ toString expected ++ " arguments, got " ++ toString found
  | typeMismatch expected found =>
    "type mismatch: expected " ++ expected.name ++ ", found " ++ found.name
  | missingValue => "expression produced no value"
  | unknownLocal index => "local " ++ toString index ++ " is not declared"
  | unboundLabel label => "branch to unbound label `" ++ label.toText ++ "`"
  | callStackExhausted => "call stack exhausted"
  | host reason => "host function failed: " ++ reason

end Weir.Machine
