import Weir.Proofs.Execution
import Weir.Proofs.UnlimitedRun

/-!
# Agreement of executions and runs

A run of lowered code agrees with the execution of its source where it ends in the way that the
outcome asks for: a break is a branch to the exit of the innermost scope, a continue one to the next
round of the innermost loop, and a return finishes the function. Locals and the outside world are
the same. Agreement is closed under everything that lowered statements are built from.

## Key results

- `Simulates.bind`, `Simulates.andThen`: sequences
- `Simulates.catching`, `Simulates.breakable`: blocks that no jump leads to, and switches
- `RoundSimulates.rounds`: loops, whatever the number of rounds
-/

namespace Weir.Lowering

open Weir.Code (Label LabelKind Node Slot Value)
open Weir.Machine

variable {σ : Type}

/-- The way in which a run of lowered code ends, inside the given scopes, for the way in which the
    execution of its source ends. -/
inductive Agrees (labels : LabelStack) : EStateM.Result Exit (Machine.State σ) Outcome →
    EStateM.Result Exit (Machine.State σ) (Option Value) → Prop
  | normal {v s} (hs : Unlimited s) : Agrees labels (.ok .normal s) (.ok v s)
  | broke {label s} (hs : Unlimited s) (htarget : labels.breakTarget = .ok label) :
      Agrees labels (.ok .broke s) (.error (.branch label) s)
  | continued {label s} (hs : Unlimited s) (htarget : labels.continueTarget = .ok label) :
      Agrees labels (.ok .continued s) (.error (.branch label) s)
  | returned {v s} : Agrees labels (.ok (.returned v) s) (.error (.finish v) s)
  | abort {e s} (he : e.isAbort) : Agrees labels (.error e s) (.error e s)

/-- From every state whose fuel is not limited, the execution and the run agree. -/
def Simulates (labels : LabelStack) (execution : Run σ Outcome) (run : Run σ (Option Value)) :
    Prop :=
  ∀ s, Unlimited s → Agrees labels (execution s) (run s)

section

variable {labels : LabelStack} {f f' : Run σ Outcome} {g : Run σ (Option Value)}

/-! ## Targets of jumps -/

/-- A `break` leaves by the end of a scope. -/
theorem breakTarget_kind {label : Label} (h : labels.breakTarget = .ok label) :
    label.kind = .exit := by
  obtain ⟨s, -, rfl⟩ := LabelStack.breakTarget_eq_ok h
  rfl

/-- A `continue` goes on with the next round of a scope. -/
theorem continueTarget_kind {label : Label} (h : labels.continueTarget = .ok label) :
    label.kind = .next := by
  obtain ⟨s, -, -, rfl⟩ := LabelStack.continueTarget_eq_ok h
  rfl

/-! ## Single steps and sequences -/

/-- Code that yields a value stands for a statement that ends normally. -/
theorem simulates_normal (v : Option Value) : Simulates (σ := σ) labels (pure .normal) (pure v) :=
  fun _ hs => .normal hs

/-- A branch to the target of `break` stands for breaking. -/
theorem simulates_broke {label : Label} (h : labels.breakTarget = .ok label) :
    Simulates (σ := σ) labels (pure .broke) (throw (.branch label)) :=
  fun _ hs => .broke hs h

/-- A branch to the target of `continue` stands for continuing. -/
theorem simulates_continued {label : Label} (h : labels.continueTarget = .ok label) :
    Simulates (σ := σ) labels (pure .continued) (throw (.branch label)) :=
  fun _ hs => .continued hs h

/-- An exit that finishes the function stands for returning. -/
theorem simulates_returned (v : Option Value) :
    Simulates (σ := σ) labels (pure (.returned v)) (throw (.finish v)) :=
  fun _ _ => .returned

/-- A step that both make, and what each goes on with. -/
theorem Simulates.bind {α : Type} {x : Run σ α} {f : α → Run σ Outcome}
    {g : α → Run σ (Option Value)} (hx : Aborts x) (h : ∀ a, Simulates labels (f a) (g a)) :
    Simulates labels (x >>= f) (x >>= g) := by
  intro s hs
  rw [Run.bind_apply, Run.bind_apply]
  cases hrun : x s with
  | ok a s' => exact h a s' (hx.of_ok hs hrun).1
  | error e s' => exact .abort (hx.of_error hs hrun).2

/-- A step that always ends normally. -/
theorem simulates_of_aborts {x : Run σ (Option Value)} (hx : Aborts x) :
    Simulates labels (do let _ ← x; pure .normal) x := by
  have h : Simulates labels (x >>= fun _ => pure .normal) (x >>= pure) :=
    Simulates.bind hx fun v => simulates_normal v
  rwa [bind_pure] at h

/-- Only the open scopes tell where jumps go. -/
theorem Simulates.of_scopes {labels' : LabelStack} (h : Simulates labels f g)
    (hscopes : labels.scopes = labels'.scopes) : Simulates labels' f g := by
  -- Targets are found among the scopes alone.
  have hbreak : labels.breakTarget = labels'.breakTarget := by
    unfold LabelStack.breakTarget
    rw [hscopes]
  have hcontinue : labels.continueTarget = labels'.continueTarget := by
    unfold LabelStack.continueTarget
    rw [hscopes]
  intro s hs
  have hinner := h s hs
  generalize f s = r at hinner ⊢
  generalize g s = r' at hinner ⊢
  cases hinner with
  | normal hs' => exact .normal hs'
  | broke hs' htarget => exact .broke hs' (hbreak ▸ htarget)
  | continued hs' htarget => exact .continued hs' (hcontinue ▸ htarget)
  | returned => exact .returned
  | abort he => exact .abort he

/-- A first part, and what follows it where it ends normally. -/
theorem Simulates.andThen {g' : Option Value → Run σ (Option Value)} (h : Simulates labels f g)
    (h' : ∀ v, Simulates labels f' (g' v)) : Simulates labels (andThen f f') (g >>= g') := by
  intro s hs
  have hfirst := h s hs
  -- The second statement runs only after an end in order, and every other end is passed on by both
  -- sides.
  unfold Lowering.andThen
  rw [Run.bind_apply, Run.bind_apply]
  generalize f s = r at hfirst
  generalize g s = r' at hfirst
  cases hfirst with
  | normal hs' => exact h' _ _ hs'
  | broke hs' htarget => exact .broke hs' htarget
  | continued hs' htarget => exact .continued hs' htarget
  | returned => exact .returned
  | abort he => exact .abort he

/-- A block whose label is not that of a jump out of it. -/
theorem Simulates.catching {label : Label} (h : Simulates labels f g)
    (hbreak : labels.breakTarget ≠ .ok label) (hcontinue : labels.continueTarget ≠ .ok label) :
    Simulates labels f (Run.catching label g) := by
  intro s hs
  have hinner := h s hs
  generalize f s = r at hinner
  generalize hg : g s = r' at hinner
  cases hinner with
  | normal hs' =>
    rw [Run.catching_of_ok hg]
    exact .normal hs'
  | broke hs' htarget =>
    rw [Run.catching_of_error hg (by rintro ⟨⟩; exact hbreak htarget)]
    exact .broke hs' htarget
  | continued hs' htarget =>
    rw [Run.catching_of_error hg (by rintro ⟨⟩; exact hcontinue htarget)]
    exact .continued hs' htarget
  | returned =>
    rw [Run.catching_of_error hg (by simp)]
    exact .returned
  -- A run that is cut off passes every label.
  | abort he =>
    rw [Run.catching_of_error hg (by rintro ⟨⟩; cases he)]
    exact .abort he

/-- A switch, whose exit is where its breaks go. A continue goes on to the loop around it. -/
theorem Simulates.breakable {id next : Nat} {outer : LabelStack}
    (h : Simulates ⟨⟨id, .switch⟩ :: outer.scopes, next⟩ f g) :
    Simulates outer (breakable f) (Run.catching (LabelScope.label ⟨id, .switch⟩ .exit) g) := by
  intro s hs
  have hinner := h s hs
  unfold Lowering.breakable
  rw [Run.bind_apply]
  generalize f s = r at hinner
  generalize hg : g s = r' at hinner
  cases hinner with
  | normal hs' =>
    rw [Run.catching_of_ok hg]
    exact .normal hs'
  | broke hs' htarget =>
    cases htarget
    rw [Run.catching_of_branch hg]
    exact .normal hs'
  | continued hs' htarget =>
    -- The scope of the switch is no loop, so the target is the same outside.
    have houter : outer.continueTarget = .ok _ := htarget
    rw [Run.catching_of_error hg (by rintro ⟨⟩; cases continueTarget_kind houter)]
    exact .continued hs' houter
  | returned =>
    rw [Run.catching_of_error hg (by simp)]
    exact .returned
  | abort he =>
    rw [Run.catching_of_error hg (by rintro ⟨⟩; cases he)]
    exact .abort he

/-! ## Loops -/

/-- The way in which a run of the round of a loop ends, given the labels of the next round and of
    the end of the loop, for the way in which the execution of the round ends. -/
inductive RoundAgrees (again exit : Label) : EStateM.Result Exit (Machine.State σ) Outcome →
    EStateM.Result Exit (Machine.State σ) (Option Value) → Prop
  | normal {s} (hs : Unlimited s) :
      RoundAgrees again exit (.ok .normal s) (.error (.branch again) s)
  | continued {s} (hs : Unlimited s) :
      RoundAgrees again exit (.ok .continued s) (.error (.branch again) s)
  | ended {v s} (hs : Unlimited s) : RoundAgrees again exit (.ok .broke s) (.ok v s)
  | broke {s} (hs : Unlimited s) : RoundAgrees again exit (.ok .broke s) (.error (.branch exit) s)
  | returned {v s} : RoundAgrees again exit (.ok (.returned v) s) (.error (.finish v) s)
  | abort {e s} (he : e.isAbort) : RoundAgrees again exit (.error e s) (.error e s)

/-- From every state whose fuel is not limited, the execution and the run of the round agree. -/
def RoundSimulates (again exit : Label) (execution : Run σ Outcome)
    (run : Run σ (Option Value)) : Prop :=
  ∀ s, Unlimited s → RoundAgrees again exit (execution s) (run s)

variable {again next exit : Label}

/-- A round that ends normally branches back to the loop. -/
theorem roundSimulates_normal :
    RoundSimulates (σ := σ) again exit (pure .normal) (throw (.branch again)) :=
  fun _ hs => .normal hs

/-- A round that breaks before its end leaves a value and does not branch. -/
private theorem roundSimulates_ended (v : Option Value) :
    RoundSimulates (σ := σ) again exit (pure .broke) (pure v) :=
  fun _ hs => .ended hs

/-- A step that both make, and what each goes on with. -/
theorem RoundSimulates.bind {α : Type} {x : Run σ α} {f : α → Run σ Outcome}
    {g : α → Run σ (Option Value)} (hx : Aborts x)
    (h : ∀ a, RoundSimulates again exit (f a) (g a)) :
    RoundSimulates again exit (x >>= f) (x >>= g) := by
  intro s hs
  rw [Run.bind_apply, Run.bind_apply]
  cases hrun : x s with
  | ok a s' => exact h a s' (hx.of_ok hs hrun).1
  | error e s' => exact .abort (hx.of_error hs hrun).2

/-- A round that runs a body where a test holds, and ends the loop where it does not. -/
theorem RoundSimulates.guarded {test : Run σ Bool} (htest : Aborts test)
    (h : RoundSimulates again exit f g) :
    RoundSimulates again exit (do if ← test then f else pure .broke)
      (do if ← test then g else pure none) := by
  refine .bind htest fun b => ?_
  cases b with
  | true => exact h
  | false => exact roundSimulates_ended none

/-- A body that a jump back follows: a continue jumps back as well. -/
theorem Simulates.jumpBack (h : Simulates labels f g) (hbreak : labels.breakTarget = .ok exit)
    (hcontinue : labels.continueTarget = .ok again) :
    RoundSimulates again exit f (g >>= fun _ => throw (.branch again)) := by
  intro s hs
  have hbody := h s hs
  rw [Run.bind_apply]
  generalize f s = r at hbody
  generalize g s = r' at hbody
  cases hbody with
  | normal hs' => exact .normal hs'
  | broke hs' htarget =>
    -- The target of the body's `break` is the exit of this loop.
    cases hbreak.symm.trans htarget
    exact .broke hs'
  | continued hs' htarget =>
    cases hcontinue.symm.trans htarget
    exact .continued hs'
  | returned => exact .returned
  | abort he => exact .abort he

/-- A body within a block that a continue leaves, and the rest of the round. -/
theorem Simulates.bodyThen {rest : Run σ Outcome} {rest' : Option Value → Run σ (Option Value)}
    (h : Simulates labels f g) (hbreak : labels.breakTarget = .ok exit)
    (hcontinue : labels.continueTarget = .ok next) (hne : exit ≠ next)
    (hrest : ∀ v, RoundSimulates again exit rest (rest' v)) :
    RoundSimulates again exit (bodyThen f rest) (Run.catching next g >>= rest') := by
  intro s hs
  have hbody := h s hs
  unfold Lowering.bodyThen
  rw [Run.bind_apply, Run.bind_apply]
  generalize f s = r at hbody
  generalize hg : g s = r' at hbody
  cases hbody with
  | normal hs' =>
    rw [Run.catching_of_ok hg]
    exact hrest _ _ hs'
  | broke hs' htarget =>
    cases hbreak.symm.trans htarget
    rw [Run.catching_of_error hg (by simpa using hne)]
    exact .broke hs'
  | continued hs' htarget =>
    -- The block around the body catches the branch, and the rest of the round still runs.
    cases hcontinue.symm.trans htarget
    rw [Run.catching_of_branch hg]
    exact hrest _ _ hs'
  | returned =>
    rw [Run.catching_of_error hg (by simp)]
    exact .returned
  | abort he =>
    rw [Run.catching_of_error hg (by rintro ⟨⟩; cases he)]
    exact .abort he

/-- A loop within the block of its end, whatever the number of its rounds. The induction is on the
    clock, which both use up alike. -/
theorem RoundSimulates.rounds (h : RoundSimulates again exit f g) (hne : exit ≠ again)
    (clock : Nat) :
    Simulates labels (rounds f clock) (Run.catching exit (Run.repeating again g clock)) := by
  induction clock with
  | zero => exact fun _ _ => .abort rfl
  | succ clock ih =>
    intro s hs
    have hround := h s hs
    have hspend := spend_of_unlimited hs
    unfold Lowering.rounds
    rw [Run.bind_apply]
    generalize f s = r at hround
    generalize hg : g s = r' at hround
    cases hround with
    | normal hs' | continued hs' =>
      -- Both start the next round from the same state.
      rw [Run.catching_congr (Run.repeating_of_branch hspend hg)]
      exact ih _ hs'
    | ended hs' =>
      rw [Run.catching_of_ok (Run.repeating_of_ok hspend hg)]
      exact .normal hs'
    | broke hs' =>
      -- The loop does not catch a branch to its end, but the block around it does.
      have hloop : Run.repeating again g (clock + 1) s = .error (.branch exit) _ :=
        Run.repeating_of_error hspend hg (by simpa using hne)
      rw [Run.catching_of_branch hloop]
      exact .normal hs'
    | returned =>
      have hloop : Run.repeating again g (clock + 1) s = .error (.finish _) _ :=
        Run.repeating_of_error hspend hg (by simp)
      rw [Run.catching_of_error hloop (by simp)]
      exact .returned
    | abort he =>
      have hloop : Run.repeating again g (clock + 1) s = .error _ _ :=
        Run.repeating_of_error hspend hg (by rintro ⟨⟩; cases he)
      rw [Run.catching_of_error hloop (by rintro ⟨⟩; cases he)]
      exact .abort he

end

end Weir.Lowering
