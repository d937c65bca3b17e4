import Weir.Proofs.CoupledRuns

/-!
# What code keeps outside of calls

Code writes locals and spends fuel, but the number of active calls and the world change in calls
only. So code keeps whatever does not depend on locals and fuel if its calls keep it. Calls
themselves put back the number of active calls, however they end.

## Key results

- `keeps_node`: code keeps what its calls keep
- `call_keeps_depth`: a call leaves as many calls active as it found
-/

namespace Weir.Machine

open Weir.Code

variable {σ : Type} {call : Nat → List Value → Run σ (Option Value)} {clock : Nat}
  {I : State σ → Prop} {E : Exit → Prop}

/-! ## Steady invariants -/

/-- What does not depend on the locals and the fuel of a state. -/
structure Steady (I : State σ → Prop) : Prop where
  locals : ∀ s locals, I s → I { s with locals }
  fuel : ∀ s fuel, I s → I { s with fuel }

/-- What holds of the world of the hosts does not change with fuel or locals. -/
theorem Steady.world (W : σ → Prop) : Steady fun s : State σ => W s.world :=
  ⟨fun _ _ hs => hs, fun _ _ hs => hs⟩

/-- The number of active calls does not change with fuel or locals. -/
private theorem Steady.depth (d : Nat) : Steady fun s : State σ => s.depth = d :=
  ⟨fun _ _ hs => hs, fun _ _ hs => hs⟩

/-- Exits over a host that is missing. -/
def Exit.lacksHost : Exit → Bool
  | .trap (.missingHost _) => true
  | _ => false

/-- The result of an operator touches nothing, and needs no host. -/
private theorem keeps_operator_steady {r : Except Trap Value}
    (h : ∀ t, r = .error t → t.isOfOperands) (hE : ∀ e : Exit, e.lacksHost = false → E e) :
    Keeps I (do let v ← Run.ofExcept r; pure (some v) : Run σ (Option Value)) (fun _ => True)
      E := by
  refine (keeps_ofExcept (Q := fun _ => True) (fun _ _ => trivial) fun t ht => hE _ ?_).bind
    fun _ _ => keeps_pure trivial
  have hoperands := h t ht
  cases t <;> first | rfl | cases hoperands

mutual

/-- Code keeps what its calls keep if it does not depend on locals and fuel, and lacks a host only
    in a call. The induction is on the node. -/
theorem keeps_node (hI : Steady I) (hE : ∀ e : Exit, e.lacksHost = false → E e)
    (hcall : ∀ id args, Keeps I (call id args) (fun _ => True) E) :
    (n : Node) → Keeps I (evalNode call clock n) (fun _ => True) E
  -- One case for each node: what it runs keeps the invariant, and what it does itself touches
  -- locals and fuel only.
  | .nop | .const _ => by simp only [evalNode]; exact keeps_pure trivial
  | .unreachable => by simp only [evalNode]; exact keeps_trap (hE _ rfl)
  | .ret | .br _ => by simp only [evalNode]; exact keeps_throw (hE _ rfl)
  | .block none children => by
    simp only [evalNode]
    exact keeps_nodes hI hE hcall none children
  | .block (some label) children => by
    simp only [evalNode]
    exact (keeps_nodes hI hE hcall none children).catching trivial fun _ he _ => he
  | .loop label body => by
    simp only [evalNode]
    exact (keeps_node hI hE hcall body).repeating
      (keeps_spend (fun _ _ hs _ => hI.fuel _ _ hs) (hE _ rfl)) (hE _ rfl) (fun _ he _ => he) clock
  | .ifThen _ c t => by
    simp only [evalNode]
    refine ((keeps_node hI hE hcall c).condition (hE _ rfl) fun _ _ _ => hE _ rfl).bind
      fun b _ => ?_
    exact Keeps.ite (keeps_node hI hE hcall t) (keeps_pure trivial)
  | .ifElse _ c t e => by
    simp only [evalNode]
    refine ((keeps_node hI hE hcall c).condition (hE _ rfl) fun _ _ _ => hE _ rfl).bind
      fun b _ => ?_
    exact Keeps.ite (keeps_node hI hE hcall t) (keeps_node hI hE hcall e)
  | .select c t e => by
    simp only [evalNode]
    refine ((keeps_node hI hE hcall t).value (hE _ rfl)).bind fun _ _ => ?_
    refine ((keeps_node hI hE hcall e).value (hE _ rfl)).bind fun _ _ => ?_
    exact ((keeps_node hI hE hcall c).condition (hE _ rfl) fun _ _ _ => hE _ rfl).bind
      fun _ _ => keeps_pure trivial
  | .brIf label c => by
    simp only [evalNode]
    refine ((keeps_node hI hE hcall c).condition (hE _ rfl) fun _ _ _ => hE _ rfl).bind
      fun b _ => ?_
    exact Keeps.ite (keeps_throw (hE _ rfl)) (keeps_pure trivial)
  | .brTable labels fallback index => by
    simp only [evalNode]
    refine ((keeps_node hI hE hcall index).value (hE _ rfl)).bind fun v _ => ?_
    refine (keeps_ofExcept (Q := fun _ => True) (fun _ _ => trivial) fun t ht => hE _ ?_).bind
      fun _ _ => keeps_throw (hE _ rfl)
    -- No trap over an operand is for want of a host.
    have hoperands := toI32_eq_error ht
    cases t <;> first | rfl | cases hoperands
  | .retValue e => by
    simp only [evalNode]
    exact ((keeps_node hI hE hcall e).value (hE _ rfl)).bind fun _ _ => keeps_throw (hE _ rfl)
  | .drop e => by
    simp only [evalNode]
    exact (keeps_node hI hE hcall e).bind fun _ _ => keeps_pure trivial
  | .localGet index _ => by
    simp only [evalNode]
    exact (keeps_getLocal (Q := fun _ => True) (fun _ _ _ _ => trivial)
      fun _ _ _ => hE _ rfl).bind fun _ _ => keeps_pure trivial
  | .localSet index e | .localTee index _ e => by
    simp only [evalNode]
    refine ((keeps_node hI hE hcall e).value (hE _ rfl)).bind fun v _ => ?_
    exact (keeps_setLocal (fun _ _ hs _ _ => hI.locals _ _ hs) (fun _ _ _ _ _ => hE _ rfl)
      fun _ _ _ => hE _ rfl).bind fun _ _ => keeps_pure trivial
  | .unary op _ e => by
    simp only [evalNode]
    exact ((keeps_node hI hE hcall e).value (hE _ rfl)).bind fun _ _ =>
      keeps_operator_steady (fun _ => unary_eq_error) hE
  | .binary op _ l r => by
    simp only [evalNode]
    exact ((keeps_node hI hE hcall l).value (hE _ rfl)).bind fun _ _ =>
      ((keeps_node hI hE hcall r).value (hE _ rfl)).bind fun _ _ =>
        keeps_operator_steady (fun _ => binary_eq_error) hE
  | .convert c e => by
    simp only [evalNode]
    exact ((keeps_node hI hE hcall e).value (hE _ rfl)).bind fun _ _ =>
      keeps_operator_steady (fun _ => convert_eq_error) hE
  | .call id args _ => by
    simp only [evalNode]
    exact (keeps_nodeArgs hI hE hcall args).bind fun vs _ => hcall id vs
termination_by structural n => n

/-- A list of nodes keeps the invariant, node by node. -/
private theorem keeps_nodes (hI : Steady I) (hE : ∀ e : Exit, e.lacksHost = false → E e)
    (hcall : ∀ id args, Keeps I (call id args) (fun _ => True) E)
    (last : Option Value) : (ns : List Node) →
    Keeps I (evalAll call clock last ns) (fun _ => True) E
  | [] => by simp only [evalAll]; exact keeps_pure trivial
  | n :: ns => by
    simp only [evalAll]
    exact (keeps_node hI hE hcall n).bind fun v _ => keeps_nodes hI hE hcall v ns
termination_by structural ns => ns

/-- Operands keep the invariant, one after the other. -/
private theorem keeps_nodeArgs (hI : Steady I) (hE : ∀ e : Exit, e.lacksHost = false → E e)
    (hcall : ∀ id args, Keeps I (call id args) (fun _ => True) E) :
    (ns : List Node) → Keeps I (evalArgs call clock ns) (fun _ => True) E
  | [] => by simp only [evalArgs]; exact keeps_pure trivial
  | n :: ns => by
    simp only [evalArgs]
    exact ((keeps_node hI hE hcall n).value (hE _ rfl)).bind fun v _ =>
      (keeps_nodeArgs hI hE hcall ns).bind fun vs _ => keeps_pure trivial
termination_by structural ns => ns

end

/-! ## The number of active calls -/

/-- A call leaves as many calls active as it found, whether it returns or traps. -/
theorem call_keeps_depth (env : Environment σ) (clock : Nat) (d id : Nat) (args : List Value) :
    Keeps (fun s => s.depth = d) (env.call clock id args) (fun _ => True) fun _ => True := by
  -- A call adds one for the run of its body and takes it off in the end.
  have henter {run : Node → Run σ (Option Value)} (d id : Nat) (args : List Value)
      (hrun : ∀ n, Keeps (fun s => s.depth = d + 1) (run n) (fun _ => True) fun _ => True) :
      Keeps (fun s => s.depth = d) (env.enter run id args) (fun _ => True) fun _ => True := by
    refine keeps_enter (keeps_spend (fun _ _ hs _ => hs) trivial) (fun _ => trivial)
      (fun _ _ _ => trivial) (fun _ _ _ _ _ _ => trivial) (fun _ _ _ => trivial)
      (fun i host _ _ _ => ?_) (fun f _ _ => ?_)
    · exact keeps_runHost (fun _ _ hs => hs) (fun _ _ _ _ => trivial) fun _ _ _ _ => trivial
    · refine keeps_runBody (hrun f.body) (fun s _ hs _ => ?_) (fun s inner _ hinner => ?_)
        (fun _ => trivial) (fun _ _ _ => trivial) (fun _ _ => trivial) (fun _ _ _ => trivial)
        trivial trivial
      · exact congrArg (· + 1) hs
      · exact Nat.sub_eq_of_eq_add hinner
  -- The body makes its calls with one less on the clock, and with one call more active.
  induction clock generalizing d id args with
  | zero => exact henter d id args fun n => keeps_throw trivial
  | succ clock ih =>
    refine henter d id args fun n => ?_
    exact keeps_node (.depth (d + 1)) (fun _ _ => trivial) (ih (d + 1)) n

/-- Code leaves as many calls active as it found. -/
theorem keeps_depth (env : Environment σ) (clock d : Nat) (n : Node) :
    Keeps (fun s => s.depth = d) (evalNode (env.call clock) clock n) (fun _ => True)
      fun _ => True :=
  keeps_node (.depth d) (fun _ _ => trivial) (call_keeps_depth env clock d) n

end Weir.Machine
