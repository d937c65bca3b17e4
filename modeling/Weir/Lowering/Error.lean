import Weir.Source.Program

/-!
# Problems found while lowering

A `Diagnostic` is a problem in the program that is reported while lowering goes on. An `Error` ends
the lowering of a program: a jump that has nowhere to go, or a broken invariant.
-/

namespace Weir.Lowering

open Weir.Source (Ty Span)

/-- Why lowering was given up. -/
inductive Error where
  | breakOutsideScope
  | continueOutsideLoop
  | scopeUnderflow
  | scopeMismatch (expected found : Nat)
  | unbalancedScopes (function : String) (depth : Nat)
  | labelCollision (id : Nat)
  | labelOverflow
  | tooManyCases (position : Nat)
  deriving DecidableEq

/-- The message for an error. -/
def Error.message : Error → String
  | breakOutsideScope => "`break` outside of a loop or switch"
  | continueOutsideLoop => "`continue` outside of a loop"
  | scopeUnderflow => "label scope stack underflow"
  | scopeMismatch expected found =>
    "left label scope " ++ toString found ++ " while scope " ++ toString expected ++
      " was innermost"
  | unbalancedScopes function depth =>
    "function `" ++ function ++ "` finished with " ++ toString depth ++ " open label scopes"
  | labelCollision id => "label scope id " ++ toString id ++ " is already live"
  | labelOverflow => "label scope ids exhausted"
  | tooManyCases position =>
    "switch clause " ++ toString position ++ " does not fit a branch table index"

/-- What is wrong with a program. -/
inductive Problem where
  | returnValueInVoidFunction
  | missingReturnValue
  | implicitConversion (source target : Ty)
  | unknownIdentifier (name : String)
  | unknownFunction (name : String)
  | arityMismatch (name : String) (expected found : Nat)
  | voidValue
  | duplicateFunction (name : String)
  | invalidOperand (op : String) (ty : Ty)
  | assignToConst (name : String)
  | duplicateDefault
  | duplicateVariable (name : String)
  | missingType (name : String)
  deriving DecidableEq

namespace Problem

/-- The message for a problem. -/
def message : Problem → String
  | returnValueInVoidFunction => "function cannot return a value"
  | missingReturnValue => "function must return a value"
  | implicitConversion source target =>
    "cannot implicitly convert `" ++ source.name ++ "` to `" ++ target.name ++ "`"
  | unknownIdentifier name => "unknown identifier '" ++ name ++ "'"
  | unknownFunction name => "unknown function '" ++ name ++ "'"
  | arityMismatch name expected found =>
    "'" ++ name ++ "' expects " ++ toString expected ++ " arguments, got " ++ toString found
  | voidValue => "expression of type `void` used as a value"
  | duplicateFunction name => "function '" ++ name ++ "' is already defined"
  | invalidOperand op ty => "operator `" ++ op ++ "` cannot be applied to `" ++ ty.name ++ "`"
  | assignToConst name => "cannot assign to constant '" ++ name ++ "'"
  | duplicateDefault => "a switch can only have one default clause"
  | duplicateVariable name => "'" ++ name ++ "' is already declared in this scope"
  | missingType name => "cannot infer a type for '" ++ name ++ "'"

/-- The stable code of a problem. -/
def code : Problem → String
  | returnValueInVoidFunction => "E2001"
  | missingReturnValue => "E2002"
  | implicitConversion .. => "E2003"
  | unknownIdentifier _ => "E2004"
  | unknownFunction _ => "E2005"
  | arityMismatch .. => "E2006"
  | voidValue => "E2007"
  | duplicateFunction _ => "E2008"
  | invalidOperand .. => "E2009"
  | assignToConst _ => "E2010"
  | duplicateDefault => "E2011"
  | duplicateVariable _ => "E2012"
  | missingType _ => "E2013"

end Problem

/-- A problem and where it is. -/
structure Diagnostic where
  problem : Problem
  span : Span
  deriving DecidableEq

/-- The message of a diagnostic with its place. -/
def Diagnostic.message (d : Diagnostic) : String :=
  d.problem.message ++ " at " ++ toString d.span.start ++ ".." ++ toString d.span.stop

end Weir.Lowering
