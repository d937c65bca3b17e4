import Weir.Code.Node
import Weir.Lowering.Error

/-!
# Label scopes

Every loop and every switch opens a `LabelScope`, whose number makes its labels unique within the
function. The `LabelStack` knows the open scopes and the next number.

* `LabelStack.breakTarget` is in the innermost scope, `LabelStack.continueTarget` in the innermost
  loop.
-/

namespace Weir.Lowering

open Weir.Code (Label LabelKind)

/-- What opened a label scope. -/
inductive ScopeKind where
  | loop
  | switch
  deriving DecidableEq, Repr

/-- A label scope. -/
structure LabelScope where
  id : Nat
  kind : ScopeKind
  deriving DecidableEq, Repr

/-- The label of a kind in a scope. -/
def LabelScope.label (s : LabelScope) (kind : LabelKind) : Label := ⟨kind, s.id⟩

/-- The open scopes from the innermost outward, and the number of the next one. -/
structure LabelStack where
  scopes : List LabelScope := []
  next : Nat := 0
  deriving DecidableEq

namespace LabelStack

/-- The first number that no scope can have: numbers have 32 bits, and the last one is never given
out. -/
def limit : Nat := 1 <<< 32 - 1

/-- Opens a scope. -/
def enter (s : LabelStack) (kind : ScopeKind) : Except Error LabelScope × LabelStack :=
  if limit ≤ s.next then (.error .labelOverflow, s)
  else
    let scope : LabelScope := ⟨s.next, kind⟩
    -- The number is used up also where no scope is opened.
    if s.scopes.any (·.id = s.next) then
      (.error (.labelCollision s.next), { s with next := s.next + 1 })
    else (.ok scope, ⟨scope :: s.scopes, s.next + 1⟩)

/-- Closes the innermost scope, which ought to be the given one. -/
def leave (s : LabelStack) (scope : LabelScope) : Except Error Unit × LabelStack :=
  match s.scopes with
  | [] => (.error .scopeUnderflow, s)
  | innermost :: rest =>
    -- The innermost scope is closed even if it is not the given one.
    (if innermost.id = scope.id then .ok () else .error (.scopeMismatch innermost.id scope.id),
      { s with scopes := rest })

/-- Where a `break` goes. -/
def breakTarget (s : LabelStack) : Except Error Label :=
  match s.scopes with
  | [] => .error .breakOutsideScope
  | innermost :: _ => .ok (innermost.label .exit)

/-- Where a `continue` goes. -/
def continueTarget (s : LabelStack) : Except Error Label :=
  match s.scopes.find? (·.kind = .loop) with
  | none => .error .continueOutsideLoop
  | some loop => .ok (loop.label .next)

/-- Number of open scopes. -/
def depth (s : LabelStack) : Nat := s.scopes.length

end LabelStack

end Weir.Lowering
