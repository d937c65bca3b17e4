import Weir.Lowering.Error

/-!
# Names in scope

`Variables` is a stack of scopes from the innermost outward, each a list of bindings with the
latest first. `FunctionTable` knows the callables of a program; the first one of a name stays.
-/

namespace Weir.Lowering

open Weir.Source (Ty)

/-- What a variable name stands for: a local, its type, and whether it may be assigned to. -/
structure Variable where
  index : Nat
  ty : Ty
  isConst : Bool
  deriving DecidableEq

/-- One scope of variables. -/
abbrev VariableScope : Type := List (String × Variable)

/-- Scopes of variables from the innermost outward. -/
abbrev Variables : Type := List VariableScope

namespace Variables

/-- What a name stands for. -/
def find? (scopes : Variables) (name : String) : Option Variable :=
  scopes.findSome? (·.lookup name)

/-- Whether a name is bound in the innermost scope. -/
def isBoundHere (scopes : Variables) (name : String) : Bool :=
  match scopes with
  | [] => false
  | scope :: _ => (scope.lookup name).isSome

/-- Binds a name in the innermost scope. -/
def bind (scopes : Variables) (name : String) (v : Variable) : Variables :=
  match scopes with
  | [] => []
  | scope :: rest => ((name, v) :: scope) :: rest

end Variables

/-- The source types of a callable and its number. -/
structure Signature where
  id : Nat
  params : List Ty
  result : Ty
  deriving DecidableEq

/-- The callables of a program by name. -/
structure FunctionTable where
  entries : List (String × Signature) := []

namespace FunctionTable

/-- The callable with a given name. -/
def find? (t : FunctionTable) (name : String) : Option Signature := t.entries.lookup name

/-- Adds a callable, unless its name is taken. -/
def insert (t : FunctionTable) (name : String) (s : Signature) : FunctionTable :=
  if (t.find? name).isSome then t else ⟨t.entries ++ [(name, s)]⟩

end FunctionTable

end Weir.Lowering
