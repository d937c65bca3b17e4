import Weir.Proofs.PlainCode
import Weir.Proofs.RunInvariant

/-!
# Runs without a limit on fuel

Where fuel is not limited it stays so, whatever code runs. Plain code then ends early only in ways
that nothing catches, and so does every call.

## Key results

- `keeps_unlimited`: what any node keeps, and how plain nodes end early
- `aborts_of_isPlain`, `call_aborts`: plain code and calls end early only in ways that nothing
  catches
-/

namespace Weir.Machine

open Weir.Code

variable {σ : Type}

/-- A state of a run whose fuel is not limited. -/
def Unlimited (s : State σ) : Prop := s.fuel = none

/-- Without a limit there is nothing to spend. -/
theorem spend_of_unlimited {s : State σ} (h : Unlimited s) : Run.spend s = .ok () s := by
  unfold Run.spend
  rw [h]

/-- Steps that leave fuel without a limit, and that end early only in ways that nothing catches. -/
abbrev Aborts {α : Type} (run : Run σ α) : Prop :=
  Keeps Unlimited run (fun _ => True) (·.isAbort)

/-- Reading a local fails only with a trap. -/
theorem aborts_getLocal {index : Nat} : Aborts (Run.getLocal index : Run σ Value) :=
  keeps_getLocal (fun _ _ _ _ => trivial) fun _ _ _ => rfl

theorem aborts_setLocal {index : Nat} {v : Value} : Aborts (Run.setLocal index v : Run σ Unit) :=
  keeps_setLocal (fun _ _ hs _ _ => hs) (fun _ _ _ _ _ => rfl) fun _ _ _ => rfl

/-- A computation without state fails only with a trap. -/
theorem aborts_ofExcept {α : Type} {r : Except Trap α} : Aborts (Run.ofExcept r : Run σ α) :=
  keeps_ofExcept (fun _ _ => trivial) fun _ _ => rfl

theorem Aborts.value {run : Run σ (Option Value)} (h : Aborts run) : Aborts (Run.value run) :=
  Keeps.value h rfl

/-- Testing a value fails with a trap, or as computing the value does. -/
theorem Aborts.condition {run : Run σ (Option Value)} (h : Aborts run) :
    Aborts (Run.condition run) :=
  Keeps.condition h rfl fun _ _ _ => rfl

section

variable {call : Nat → List Value → Run σ (Option Value)} {clock : Nat}

/-- Calls that leave fuel without a limit, and that end early only in ways that nothing catches. -/
def CallsAbort (call : Nat → List Value → Run σ (Option Value)) : Prop :=
  ∀ id args, Aborts (call id args)

/-- How a node may end early: if it is plain, only in ways that nothing catches. -/
abbrev Exit.AbortsIf (plain : Bool) (e : Exit) : Prop := plain → e.isAbort

/-- Steps that abort may be a part of any node. -/
private theorem Aborts.within {α : Type} {run : Run σ α} {plain : Bool} (h : Aborts run) :
    Keeps Unlimited run (fun _ => True) (Exit.AbortsIf plain) :=
  h.mono (fun _ hQ => hQ) fun _ he _ => he

/-- A part of a node that is plain if the node is. -/
private theorem Keeps.part {α : Type} {run : Run σ α} {Q : α → Prop} {part whole : Bool}
    (h : Keeps Unlimited run Q (Exit.AbortsIf part)) (hpart : whole → part) :
    Keeps Unlimited run Q (Exit.AbortsIf whole) :=
  h.mono (fun _ hQ => hQ) fun _ he hwhole => he (hpart hwhole)

private theorem keeps_operator_unlimited {r : Except Trap Value} {plain : Bool} :
    Keeps Unlimited (do let v ← Run.ofExcept r; pure (some v) : Run σ (Option Value))
      (fun _ => True) (Exit.AbortsIf plain) :=
  aborts_ofExcept.within.bind fun _ _ => keeps_pure trivial

private theorem Keeps.valueOf {run : Run σ (Option Value)} {plain : Bool}
    (h : Keeps Unlimited run (fun _ => True) (Exit.AbortsIf plain)) :
    Keeps Unlimited (Run.value run) (fun _ => True) (Exit.AbortsIf plain) :=
  h.value fun _ => rfl

private theorem Keeps.conditionOf {run : Run σ (Option Value)} {plain : Bool}
    (h : Keeps Unlimited run (fun _ => True) (Exit.AbortsIf plain)) :
    Keeps Unlimited (Run.condition run) (fun _ => True) (Exit.AbortsIf plain) :=
  h.condition (fun _ => rfl) fun _ _ _ _ => rfl

mutual

/-- Every node leaves fuel without a limit, and a plain node ends early only in ways that nothing
    catches. The induction is on the node; nodes that are not plain may end in any way. -/
theorem keeps_unlimited (hcall : CallsAbort call) : (n : Node) →
    Keeps Unlimited (evalNode call clock n) (fun _ => True) (Exit.AbortsIf n.isPlain)
  | .nop => by simp only [evalNode]; exact keeps_pure trivial
  | .unreachable => by simp only [evalNode]; exact keeps_trap fun _ => rfl
  | .const v => by simp only [evalNode]; exact keeps_pure trivial
  | .ret => by simp only [evalNode]; exact keeps_throw (by simp [Exit.AbortsIf, Node.isPlain])
  | .br label => by
    simp only [evalNode]
    exact keeps_throw (by simp [Exit.AbortsIf, Node.isPlain])
  | .block none children => by
    simp only [evalNode]
    exact keeps_unlimitedAll hcall none children
  | .block (some label) children => by
    simp only [evalNode]
    -- A block that catches a branch is not plain either.
    exact (keeps_unlimitedAll hcall none children).catching trivial
      fun e _ _ => by simp [Exit.AbortsIf, Node.isPlain]
  | .loop label body => by
    -- Rounds spend nothing, so a loop runs out of its clock but never out of fuel.
    simp only [evalNode]
    exact (keeps_unlimited hcall body).repeating (F := Exit.AbortsIf false)
      (keeps_spend (fun s n hs hfuel => absurd hfuel (by rw [hs]; simp)) fun h => by cases h)
      (fun h => by cases h) (fun e _ _ h => by cases h) clock
  | .ifThen _ c t => by
    simp only [evalNode]
    refine ((keeps_unlimited hcall c).part ?_).conditionOf.bind fun b _ => Keeps.ite ?_ ?_
    · exact fun h => (Bool.and_eq_true_iff.1 h).1
    · exact (keeps_unlimited hcall t).part fun h => (Bool.and_eq_true_iff.1 h).2
    · exact keeps_pure trivial
  | .ifElse _ c t e => by
    simp only [evalNode]
    refine ((keeps_unlimited hcall c).part ?_).conditionOf.bind fun b _ => Keeps.ite ?_ ?_
    · exact fun h => (Bool.and_eq_true_iff.1 h).1
    · refine (keeps_unlimited hcall t).part fun h => ?_
      exact (Bool.and_eq_true_iff.1 (Bool.and_eq_true_iff.1 h).2).1
    · refine (keeps_unlimited hcall e).part fun h => ?_
      exact (Bool.and_eq_true_iff.1 (Bool.and_eq_true_iff.1 h).2).2
  | .select c t e => by
    simp only [evalNode]
    refine ((keeps_unlimited hcall t).part ?_).valueOf.bind fun _ _ => ?_
    · exact fun h => (Bool.and_eq_true_iff.1 (Bool.and_eq_true_iff.1 h).2).1
    refine ((keeps_unlimited hcall e).part ?_).valueOf.bind fun _ _ => ?_
    · exact fun h => (Bool.and_eq_true_iff.1 (Bool.and_eq_true_iff.1 h).2).2
    refine ((keeps_unlimited hcall c).part ?_).conditionOf.bind fun _ _ => keeps_pure trivial
    exact fun h => (Bool.and_eq_true_iff.1 h).1
  | .brIf label c => by
    simp only [evalNode]
    refine ((keeps_unlimited hcall c).part ?_).conditionOf.bind fun b _ => Keeps.ite ?_ ?_
    · simp [Node.isPlain]
    -- A node that branches is not plain.
    · exact keeps_throw (by simp [Exit.AbortsIf, Node.isPlain])
    · exact keeps_pure trivial
  | .brTable targets fallback index => by
    simp only [evalNode]
    refine ((keeps_unlimited hcall index).part ?_).valueOf.bind fun v _ => ?_
    · simp [Node.isPlain]
    refine aborts_ofExcept.within.bind fun i _ => keeps_throw ?_
    simp [Exit.AbortsIf, Node.isPlain]
  | .retValue e => by
    simp only [evalNode]
    refine ((keeps_unlimited hcall e).part ?_).valueOf.bind fun v _ => keeps_throw ?_
    · simp [Node.isPlain]
    · simp [Exit.AbortsIf, Node.isPlain]
  | .drop e => by
    simp only [evalNode]
    exact ((keeps_unlimited hcall e).part fun h => h).bind fun _ _ => keeps_pure trivial
  | .localGet index _ => by
    simp only [evalNode]
    exact aborts_getLocal.within.bind fun _ _ => keeps_pure trivial
  | .localSet index e | .localTee index _ e => by
    simp only [evalNode]
    exact ((keeps_unlimited hcall e).part fun h => h).valueOf.bind fun _ _ =>
      aborts_setLocal.within.bind fun _ _ => keeps_pure trivial
  | .unary op _ e => by
    simp only [evalNode]
    exact ((keeps_unlimited hcall e).part fun h => h).valueOf.bind fun _ _ =>
      keeps_operator_unlimited
  | .binary op _ l r => by
    simp only [evalNode]
    refine ((keeps_unlimited hcall l).part ?_).valueOf.bind fun _ _ => ?_
    · exact fun h => (Bool.and_eq_true_iff.1 h).1
    refine ((keeps_unlimited hcall r).part ?_).valueOf.bind fun _ _ => keeps_operator_unlimited
    exact fun h => (Bool.and_eq_true_iff.1 h).2
  | .convert c e => by
    simp only [evalNode]
    exact ((keeps_unlimited hcall e).part fun h => h).valueOf.bind fun _ _ =>
      keeps_operator_unlimited
  | .call id args _ => by
    simp only [evalNode]
    refine ((keeps_unlimitedArgs hcall args).part fun h => h).bind fun vs _ => ?_
    -- A call ends as calls do, with a value or by failing.
    exact (hcall id vs).within
termination_by structural n => n

/-- A list is left in another way only by a node that is not plain. -/
private theorem keeps_unlimitedAll (hcall : CallsAbort call) (last : Option Value) :
    (ns : List Node) →
    Keeps Unlimited (evalAll call clock last ns) (fun _ => True) (Exit.AbortsIf (allPlain ns))
  | [] => by simp only [evalAll]; exact keeps_pure trivial
  | n :: ns => by
    simp only [evalAll]
    refine ((keeps_unlimited hcall n).part ?_).bind fun v _ =>
      (keeps_unlimitedAll hcall v ns).part ?_
    · exact fun h => (Bool.and_eq_true_iff.1 h).1
    · exact fun h => (Bool.and_eq_true_iff.1 h).2
termination_by structural ns => ns

/-- Operands are left in another way only by one that is not plain. -/
private theorem keeps_unlimitedArgs (hcall : CallsAbort call) : (ns : List Node) →
    Keeps Unlimited (evalArgs call clock ns) (fun _ => True) (Exit.AbortsIf (allPlain ns))
  | [] => by simp only [evalArgs]; exact keeps_pure trivial
  | n :: ns => by
    simp only [evalArgs]
    refine ((keeps_unlimited hcall n).part ?_).valueOf.bind fun v _ => ?_
    · exact fun h => (Bool.and_eq_true_iff.1 h).1
    refine ((keeps_unlimitedArgs hcall ns).part ?_).bind fun vs _ => keeps_pure trivial
    exact fun h => (Bool.and_eq_true_iff.1 h).2
termination_by structural ns => ns

end

/-- Plain code ends early only in ways that nothing catches. -/
theorem aborts_of_isPlain (hcall : CallsAbort call) {n : Node} (hn : n.isPlain) :
    Aborts (evalNode call clock n) :=
  (keeps_unlimited hcall n).mono (fun _ h => h) fun _ he => he hn

end

/-! ## Calls -/

/-- A call leaves fuel without a limit and aborts, if it does not return, provided that running a
    body leaves fuel without a limit. -/
private theorem keeps_enter_unlimited {env : Environment σ} {run : Node → Run σ (Option Value)}
    {id : Nat} {args : List Value}
    (hrun : ∀ n, Keeps Unlimited (run n) (fun _ => True) (fun _ => True)) :
    Aborts (env.enter run id args) := by
  -- All that can go wrong on the way into a call is a trap.
  refine keeps_enter (keeps_spend (fun s n hs hfuel => absurd hfuel (by rw [hs]; simp)) rfl)
    (fun _ => rfl) (fun _ _ _ => rfl) (fun _ _ _ _ _ _ => rfl) (fun _ _ _ => rfl)
    (fun i host _ _ _ => ?_) (fun f _ _ => ?_)
  · exact keeps_runHost (fun _ _ hs => hs) (fun _ _ _ _ => trivial) fun _ _ _ _ => rfl
  · exact keeps_runBody (hrun f.body) (fun _ _ hs _ => hs) (fun _ _ _ hs => hs)
      (fun _ => trivial) (fun _ _ _ => trivial) (fun _ _ => rfl) (fun _ habort _ => habort) rfl rfl

/-- Every call leaves fuel without a limit, and ends early only in ways that nothing catches. The
    induction is on the clock, which bounds the depth of the calls. -/
theorem call_aborts (env : Environment σ) (clock : Nat) : CallsAbort (env.call clock) := by
  induction clock with
  | zero => exact fun id args => keeps_enter_unlimited fun n => keeps_throw trivial
  | succ clock ih =>
    refine fun id args => keeps_enter_unlimited fun n => ?_
    exact (keeps_unlimited ih n).mono (fun _ h => h) fun _ _ => trivial

end Weir.Machine
