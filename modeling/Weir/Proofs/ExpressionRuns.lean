import Weir.Proofs.ExpressionShapes
import Weir.Proofs.RunInvariant

/-!
# Runs of compiled expressions

Code that is compiled from an expression does not branch, and writes only locals of variables that
can be named. A call does neither: its body has locals of its own, and labels do not reach beyond
it.

## Key results

- `call_keeps_locals`: a call leaves the locals of its caller as they are
- `expressive_keeps`: what the code of an expression keeps of the locals
-/

namespace Weir.Machine

open Weir.Code

variable {σ α : Type}

/-- Exits that no block or loop catches. -/
def Exit.Unbranching (e : Exit) : Prop := ∀ label, e ≠ .branch label

/-- An abort is no jump, so it is no branch. -/
private theorem Exit.unbranching_of_isAbort {e : Exit} (h : e.isAbort) : e.Unbranching := by
  rintro label rfl
  cases h

/-- Steps that keep a property of the locals, and that do not branch. -/
abbrev KeepsLocals (J : List Value → Prop) (run : Run σ α) : Prop :=
  Keeps (fun s => J s.locals) run (fun _ => True) Exit.Unbranching

/-- Calls that leave the locals of their caller as they are. -/
def CallsKeepLocals (call : Nat → List Value → Run σ (Option Value)) : Prop :=
  ∀ J id args, KeepsLocals J (call id args)

/-- A call leaves locals as they are, whatever the bodies of functions do. -/
private theorem enter_keepsLocals (env : Environment σ) (run : Node → Run σ (Option Value))
    (J : List Value → Prop) (id : Nat) (args : List Value) :
    KeepsLocals J (env.enter run id args) := by
  have hbody (n : Node) : Keeps (fun _ => True) (run n) (fun _ => True) (fun _ => True) := by
    intro s _
    cases run n s <;> exact ⟨trivial, trivial⟩
  have htrap (reason : Trap) : (Exit.trap reason).Unbranching := fun label h => by cases h
  refine keeps_enter (keeps_spend (fun s n hs _ => hs) (htrap _)) (fun _ => htrap _)
    (fun _ _ _ => htrap _) (fun _ _ _ _ _ _ => htrap _) (fun _ _ _ => htrap _)
    (fun i host _ _ _ => ?_) (fun f _ _ => ?_)
  · exact keeps_runHost (fun _ _ hs => hs) (fun _ _ _ _ => trivial) fun _ _ _ _ => htrap _
  · -- The frame of the caller is put back, however the body ended.
    exact keeps_runBody (hbody f.body) (fun _ _ _ _ => trivial) (fun _ _ hs _ => hs)
      (fun _ => trivial) (fun _ _ _ => trivial) (fun _ _ => htrap _)
      (fun _ habort _ => Exit.unbranching_of_isAbort habort) (htrap _) (htrap _)

/-- Calls keep every property of the caller's locals, whatever the fuel: the locals of the callee
    are its own. -/
theorem call_keeps_locals (env : Environment σ) (clock : Nat) :
    CallsKeepLocals (env.call clock) := by
  intro J id args
  cases clock with
  | zero => exact enter_keepsLocals env _ J id args
  | succ clock => exact enter_keepsLocals env _ J id args

/-! ## Parts of nodes -/

section

variable {J : List Value → Prop}

/-- A trap keeps the locals. -/
theorem keepsLocals_trap {reason : Trap} : KeepsLocals J (Run.trap reason : Run σ α) :=
  keeps_trap fun label h => by cases h

/-- A computation that may only trap keeps the locals. -/
theorem keepsLocals_ofExcept {r : Except Trap α} : KeepsLocals J (Run.ofExcept r : Run σ α) :=
  keeps_ofExcept (fun _ _ => trivial) fun _ _ label h => by cases h

/-- Reading a local keeps the locals. -/
theorem keepsLocals_getLocal {index : Nat} : KeepsLocals J (Run.getLocal index : Run σ Value) :=
  keeps_getLocal (fun _ _ _ _ => trivial) fun _ _ _ label h => by cases h

/-- Insisting on a value keeps what the computation of it keeps. -/
theorem KeepsLocals.value {run : Run σ (Option Value)} (h : KeepsLocals J run) :
    KeepsLocals J (Run.value run) :=
  Keeps.value h fun label h => by cases h

/-- Insisting on a truth value keeps what the computation of it keeps. -/
private theorem KeepsLocals.condition {run : Run σ (Option Value)} (h : KeepsLocals J run) :
    KeepsLocals J (Run.condition run) :=
  Keeps.condition h (fun label h => by cases h) fun _ _ _ label h => by cases h

/-- The result of an operator is all that is left to do. -/
private theorem keepsLocals_operator {r : Except Trap Value} :
    KeepsLocals J (do let v ← Run.ofExcept r; pure (some v) : Run σ (Option Value)) :=
  keepsLocals_ofExcept.bind fun _ _ => keeps_pure trivial

end

end Weir.Machine

namespace Weir.Lowering

open Weir.Code (Node Value)
open Weir.Machine

variable {σ : Type} {call : Nat → List Value → Run σ (Option Value)} {clock : Nat}

/-- Code of expressions keeps what the writes to its variables keep, and does not branch. -/
theorem expressive_keeps (hcall : CallsKeepLocals call) {written : Nat → Prop}
    {J : List Value → Prop} (hJ : ∀ vs index v, J vs → written index → J (vs.set index v)) :
    Expressive written fun n => KeepsLocals J (evalNode call clock n) where
  nop := by simp only [evalNode]; exact keeps_pure trivial
  unreachable := by simp only [evalNode]; exact keepsLocals_trap
  const v := by simp only [evalNode]; exact keeps_pure trivial
  localGet index slot := by
    simp only [evalNode]
    exact keepsLocals_getLocal.bind fun _ _ => keeps_pure trivial
  localTee index slot e hwritten he := by
    simp only [evalNode]
    refine he.value.bind fun v _ => Keeps.bind (Q := fun _ => True) ?_ fun _ _ => keeps_pure trivial
    -- The one write to the locals, at an index that may be written.
    exact keeps_setLocal (fun s _ hs _ _ => hJ s.locals index v hs hwritten)
      (fun _ _ _ _ _ label h => by cases h) fun _ _ _ label h => by cases h
  unary op slot e he := by
    simp only [evalNode]
    exact he.value.bind fun _ _ => keepsLocals_operator
  binary op slot l r hl hr := by
    simp only [evalNode]
    exact hl.value.bind fun _ _ => hr.value.bind fun _ _ => keepsLocals_operator
  convert c e he := by
    simp only [evalNode]
    exact he.value.bind fun _ _ => keepsLocals_operator
  drop e he := by
    simp only [evalNode]
    exact he.bind fun _ _ => keeps_pure trivial
  absent e he := by
    simp only [absent, evalNode, evalAll]
    exact he.bind fun _ _ => keepsLocals_trap.bind fun _ _ => keeps_pure trivial
  ifElse slot c t e hc ht he := by
    simp only [evalNode]
    exact hc.condition.bind fun b _ => Keeps.ite ht he
  call callee args slot hargs := by
    simp only [evalNode]
    -- The arguments are evaluated in the caller, and the call itself keeps its locals.
    refine (keeps_evalArgs (fun label h => by cases h) hargs).bind fun vs _ => hcall J callee vs

end Weir.Lowering
