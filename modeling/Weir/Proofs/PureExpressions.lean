import Weir.Proofs.EvaluationOrder
import Weir.Proofs.ExpressionRanges

/-!
# Expressions without effects

An expression without calls and assignments yields a value or traps, and it leaves the state as it
is. Which of the two it does depends on the variables alone, so that calls may be imagined to do
anything; if they trap, it is clear that they keep the slots and ranges of the variables, and the
value of the expression is one of its type.

## Key results

- `evaluate_silent`: an expression without calls and assignments only has an outcome
- `compile_outcome`: this outcome is the one of its code, and a value is of the type of the code
-/

namespace Weir.Source

/-- Whether an expression has neither calls nor assignments. -/
def Expr.isPure : Expr → Bool
  | .literal .. | .name .. => true
  | .paren _ e | .unary _ _ e | .cast _ e _ => e.isPure
  | .binary _ _ left right => left.isPure && right.isPure
  | .assign .. | .call .. => false

/-- What code of a type may yield: a value of the type, or none if the type has none. -/
def Ty.Yields (w : PointerWidth) (t : Ty) (v : Option Code.Value) : Prop :=
  Machine.resultSlot v = t.slot w ∧ ∀ x, v = some x → t.Contains x

end Weir.Source

namespace Weir.Machine

open Weir.Code

variable {σ α β : Type} {s : State σ}

/-- What there is to calls. -/
abbrev Caller (σ : Type) : Type := Nat → List Value → Run σ (Option Value)

/-- Whatever calls do, the run has the same outcome in the state, and leaves the state as it is. -/
def Silent (s : State σ) (run : Caller σ → Run σ α) : Prop :=
  ∃ r : Except Trap α, ∀ call, run call s = Run.ofExcept r s

namespace Silent

private theorem ofExcept (r : Except Trap α) : Silent s fun _ => Run.ofExcept r := ⟨r, fun _ => rfl⟩

private theorem pure (a : α) : Silent s fun _ => (Pure.pure a : Run σ α) := ofExcept (.ok a)

/-- A trap is silent. -/
theorem trap (reason : Trap) : Silent s fun _ => (Run.trap reason : Run σ α) :=
  ofExcept (.error reason)

/-- A silent step after a silent step: the state that the second one starts in is still the first
    one. -/
theorem bind {run : Caller σ → Run σ α} {f : Caller σ → α → Run σ β} (h : Silent s run)
    (hf : ∀ a, Silent s fun call => f call a) : Silent s fun call => run call >>= f call := by
  obtain ⟨r, hr⟩ := h
  have hbind (call : Caller σ) :
      (run call >>= f call) s = (Run.ofExcept r >>= f call : Run σ β) s := by
    rw [Run.bind_apply, hr call, Run.bind_apply]
  -- A step that traps is the end, whatever would have followed.
  cases r with
  | ok a =>
    obtain ⟨r', hr'⟩ := hf a
    exact ⟨r', fun call => (hbind call).trans (hr' call)⟩
  | error reason => exact ⟨.error reason, hbind⟩

/-- A choice between silent steps is silent. -/
private theorem ite {c : Prop} [Decidable c] {run run' : Caller σ → Run σ α} (h : Silent s run)
    (h' : Silent s run') : Silent s fun call => if c then run call else run' call := by
  split
  · exact h
  · exact h'

/-- Reading a local is silent. -/
private theorem getLocal (index : Nat) : Silent s fun _ => Run.getLocal index := by
  -- Whether the local is there depends on the state only.
  cases h : s.locals[index]? with
  | some v =>
    refine ⟨.ok v, fun call => ?_⟩
    simp only [Run.getLocal, h]
    rfl
  | none =>
    refine ⟨.error (.unknownLocal index), fun call => ?_⟩
    simp only [Run.getLocal, h]
    rfl

/-- Asking for a value is silent. -/
theorem value {run : Caller σ → Run σ (Option Value)} (h : Silent s run) :
    Silent s fun call => Run.value (run call) := by
  simp only [Run.value_eq]
  exact h.bind fun v => ofExcept _

/-- Testing a value is silent. -/
theorem condition {run : Caller σ → Run σ (Option Value)} (h : Silent s run) :
    Silent s fun call => Run.condition (run call) :=
  h.value.bind fun v => (ofExcept v.toI32).bind fun _ => pure _

end Silent

end Weir.Machine

namespace Weir.Lowering

open Weir.Code (SourceTypes TypeContext Value)
open Weir.Machine
open Weir.Source (BinaryOp Expr Literal PointerWidth Ty UnaryOp)

variable {σ : Type} {s : Machine.State σ}

/-! ## Operands -/

section

variable {w : PointerWidth} {operand left right : Operand}
  {run leftRun rightRun : Caller σ → Ty → Run σ (Option Value)}

/-- A converted operand is silent if the operand is. -/
private theorem converted_silent (h : ∀ t, Silent s fun call => run call t) (expected target : Ty) :
    Silent s fun call => Part.converted w ⟨operand, run call⟩ expected target :=
  (h expected).bind fun v =>
    Silent.ofExcept (convertValue w (operand.compile expected).value.ty target v)

/-- A binary operator on silent operands is silent. -/
private theorem evaluateBinary_silent (op : BinaryOp) (expected : Ty)
    (hl : ∀ t, Silent s fun call => leftRun call t)
    (hr : ∀ t, Silent s fun call => rightRun call t) :
    Silent s fun call => evaluateBinary w op ⟨left, leftRun call⟩ ⟨right, rightRun call⟩
      expected := by
  have hlogical (isAnd : Bool) : Silent s fun call =>
      evaluateLogical w isAnd ⟨left, leftRun call⟩ ⟨right, rightRun call⟩ := by
    refine (converted_silent hl .bool .bool).condition.bind fun b => Silent.ite ?_ ?_
    · exact converted_silent hr .bool .bool
    · exact Silent.pure _
  have hstrict : Silent s fun call =>
      evaluateStrict w op ⟨left, leftRun call⟩ ⟨right, rightRun call⟩ expected := by
    unfold evaluateStrict
    dsimp only
    refine (converted_silent hl _ _).value.bind fun a => ?_
    exact (converted_silent hr _ _).value.bind fun b => Silent.ofExcept _
  -- All other operators evaluate both of their operands.
  cases op with
  | and => exact hlogical true
  | or => exact hlogical false
  | _ => exact hstrict

/-- A unary operator on a silent operand is silent. -/
private theorem evaluateUnary_silent (op : UnaryOp) (literal? : Option Literal) (expected : Ty)
    (h : ∀ t, Silent s fun call => run call t) :
    Silent s fun call => evaluateUnary w op ⟨operand, run call⟩ literal? expected := by
  let t := (operand.compile expected).value.ty.resolve w
  cases op with
  | plus => exact h expected
  | not => exact (converted_silent h .bool .bool).bind fun _ => Silent.ofExcept _
  | bitNot => exact (h expected).value.bind fun v => Silent.ofExcept (complement w t v)
  | minus =>
    -- A minus sign in front of a number belongs to the literal, and otherwise the value is negated.
    have hsign : Silent s fun call => evaluateUnary w .minus ⟨operand, run call⟩ none expected :=
      (h expected).value.bind fun v => Silent.ofExcept (negate w t v)
    match literal? with
    | some (.int n) => exact Silent.pure _
    | some (.float x) => exact Silent.pure _
    | some (.boolean b) => exact hsign
    | none => exact hsign

end

/-! ## Expressions -/

/-- An expression without calls and assignments only has an outcome. -/
theorem evaluate_silent {ctx : Context} :
    (e : Expr) → e.isPure → ∀ t, Silent s fun call => evaluate call ctx e t
  | .literal _ value, _ => fun t => by
    simp only [evaluate]
    exact Silent.pure _
  | .name _ name, _ => fun t => by
    simp only [evaluate]
    split
    · exact Silent.trap _
    · exact (Silent.getLocal _).bind fun _ => Silent.pure _
  | .paren _ inner, h => fun t => by
    simp only [evaluate]
    exact evaluate_silent inner h t
  | .unary _ op operand, h => fun t => by
    simp only [evaluate]
    exact evaluateUnary_silent op _ t fun t => evaluate_silent operand h t
  | .binary _ op left right, h => fun t => by
    have hparts : left.isPure ∧ right.isPure := by simpa [Expr.isPure] using h
    simp only [evaluate]
    exact evaluateBinary_silent op t (fun t => evaluate_silent left hparts.1 t)
      fun t => evaluate_silent right hparts.2 t
  | .cast _ operand t, h => fun _ => by
    simp only [evaluate]
    exact converted_silent (fun t => evaluate_silent operand h t) t t
termination_by structural e => e

/-- Calls that trap. -/
private def trapping : Caller σ := fun _ _ => Run.trap .unreachable

/-- A call that traps keeps the slots of all locals. -/
private theorem trapping_keepsSlots (Γ : TypeContext) :
    CallsKeepSlots (trapping : Caller σ) Γ :=
  fun _ _ _ _ _ _ => keeps_trap ⟨rfl, rfl⟩

/-- A call that traps keeps the ranges of all locals. -/
private theorem trapping_keepsRange (Δ : SourceTypes) :
    CallsKeepRange (trapping : Caller σ) Δ :=
  fun _ _ _ _ _ _ => keeps_trap trivial

/-- The variables of a context in the locals of a state: each has a local, which holds a value of
    its type. -/
structure Context.Describes (ctx : Context) (Γ : TypeContext) (Δ : SourceTypes)
    (s : Machine.State σ) : Prop where
  fits : ctx.Fits Γ
  agrees : ctx.Agrees Δ
  slots : HasSlots Γ.locals s
  ranges : LocalsInRange Δ.locals s

/-- The code of an expression without calls and assignments has one outcome, whatever calls do: a
    value of its type, or a trap. -/
theorem compile_outcome {ctx : Context} {Γ : TypeContext} {Δ : SourceTypes} {e : Expr}
    (hpure : e.isPure) (hs : ctx.Describes Γ Δ s) (t : Ty) :
    (compile ctx e t).Unreported fun c => ∃ r : Except Trap (Option Value),
      (∀ call clock, evalNode call clock c.node s = Run.ofExcept r s) ∧
      ∀ v, r = .ok v → c.ty.Yields ctx.width v := by
  intro hquiet
  have hsilent : Silent s fun call => evaluate call ctx e t := evaluate_silent e hpure t
  obtain ⟨r, hr⟩ := hsilent
  have hrun (call : Caller σ) (clock : Nat) :
      evalNode call clock (compile ctx e t).value.node s = Run.ofExcept r s := by
    rw [compile_follows call clock ctx e t hquiet]
    exact hr call
  refine ⟨r, hrun, ?_⟩
  rintro v rfl
  -- The slot and the range of the value are known from the typing of the code.
  have htyped : (compile ctx e t).value.Typed Γ [] ctx.width := compile_typed hs.fits e t
  have hwithin := compile_within hs.agrees e t
  have hyields := hrun trapping 0
  have hslot := (keeps_of_typed (trapping_keepsSlots Γ) _ htyped).of_ok hs.slots hyields
  have hrange := (keeps_of_respects (trapping_keepsRange Δ) _ hwithin.respects).of_ok hs.ranges
    hyields
  exact ⟨hslot.2, fun x hx => hwithin.contains x (hrange.2 x hx)⟩

end Weir.Lowering
