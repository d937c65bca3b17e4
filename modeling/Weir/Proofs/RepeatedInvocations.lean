import Weir.Proofs.ActiveCalls
import Weir.Proofs.Endings
import Weir.Proofs.ExpressionRuns

/-!
# Repeated invocations

A machine is used for one invocation after the other. Whatever an invocation ends in, it leaves no
locals and no active calls behind, only the fuel that is left and the world as it is now. So the
next one runs as it would on a new machine, and has all the room for calls that there is.

## Key results

- `invoke_leaves_frame`: an invocation puts back locals and active calls
- `Reused.eq_fresh`: a machine that was used is like a new one
- `invoke_reused`: what invocations do on a machine that was used
-/

namespace Weir.Machine

open Weir.Code

variable {σ : Type} {m : Module} {s : State σ}

/-- However it ends, an invocation leaves locals and active calls as it found them. -/
theorem invoke_leaves_frame (env : Environment σ) (clock : Nat) (name : String) (args : List Value)
    (s : State σ) :
    (final (env.invoke clock name args s)).locals = s.locals ∧
      (final (env.invoke clock name args s)).depth = s.depth := by
  unfold Environment.invoke
  cases env.module.findFunction? name with
  | none => exact ⟨rfl, rfl⟩
  | some id =>
    exact ⟨(call_keeps_locals env clock (· = s.locals) id args).final rfl,
      (call_keeps_depth env clock s.depth id args).final rfl⟩

/-- The states in which a machine that runs a module may start an invocation: it is new, or it was
    given other fuel or its hosts another state, or it has ended an invocation before. -/
inductive Reused (m : Module) : State σ → Prop
  | fresh (fuel : Option Nat) (world : σ) : Reused m ⟨[], fuel, 0, world⟩
  | supplied {s : State σ} (fuel : Option Nat) (world : σ) (h : Reused m s) :
      Reused m { s with fuel, world }
  | invoked {s : State σ} {host? : Nat → Option (Host σ)} {name : String} {args : List Value}
      {r : EStateM.Result Exit (State σ) (Option Value)} (h : Reused m s)
      (hrun : (Environment.mk m host?).Ends name args s r) : Reused m (final r)

/-- Fuel and world are all that is left of what a machine did. -/
theorem Reused.eq_fresh (h : Reused m s) : s = ⟨[], s.fuel, 0, s.world⟩ := by
  suffices hframe : s.locals = [] ∧ s.depth = 0 by
    rw [← hframe.1, ← hframe.2]
  induction h with
  | fresh fuel world => exact ⟨rfl, rfl⟩
  | supplied fuel world h ih => exact ih
  -- Only an invocation runs anything, and it leaves the frame alone.
  | @invoked s host? name args r h hrun ih =>
    obtain ⟨clock, rfl⟩ := hrun.run
    obtain ⟨hlocals, hdepth⟩ := invoke_leaves_frame ⟨m, host?⟩ clock name args s
    exact ⟨hlocals.trans ih.1, hdepth.trans ih.2⟩

/-- After any invocations, and whatever they ended in, no calls are active, and an invocation ends
    as it would on a new machine with the same fuel and world: in the same result or trap, with the
    same fuel left and the same world. It traps for want of room exactly if it comes itself to a
    call of a function of the module, with fuel left and suitable arguments, while as many calls of
    its own as there may be are active; or if a host that it calls fails that way of itself. -/
theorem invoke_reused (h : Reused m s) :
    s.depth = 0 ∧ ∀ (host? : Nat → Option (Host σ)) (name : String) (args : List Value),
      let env : Environment σ := ⟨m, host?⟩
      (∀ r, env.Ends name args s r ↔ env.Ends name args ⟨[], s.fuel, 0, s.world⟩ r) ∧
      (∀ r, env.Ends name args s r → (final r).depth = 0) ∧
      ((∃ t, env.Ends name args s (.error (.trap .callStackExhausted) t)) ↔
        ∃ clock id, m.findFunction? name = some id ∧ ∃ n callee vs t,
          env.Comes clock id args s n callee vs t ∧
          (n = maxDepth ∧ env.Attempts callee vs t ∨ env.HostExhausts callee vs t)) := by
  have hfresh := h.eq_fresh
  have hdepth : s.depth = 0 := by rw [hfresh]
  refine ⟨hdepth, fun host? name args => ⟨fun r => ?_, fun r hrun => ?_, ?_⟩⟩
  · rw [← hfresh]
  · rw [(Reused.invoked h hrun).eq_fresh]
  · constructor
    · rintro ⟨t, ⟨clock, hrun⟩, -⟩
      unfold Environment.invoke at hrun
      cases hname : m.findFunction? name with
      | none =>
        simp only [hname] at hrun
        cases hrun
      | some id =>
        simp only [hname] at hrun
        exact ⟨clock, id, rfl, (call_exhausted_iff hdepth).1 ⟨t, hrun⟩⟩
    · rintro ⟨clock, id, hname, hcomes⟩
      -- Trapping is an end, so the clock that brings it is not cut off.
      obtain ⟨t, hrun⟩ := (call_exhausted_iff hdepth).2 hcomes
      refine ⟨t, ⟨clock, ?_⟩, fun u hu => by cases hu⟩
      unfold Environment.invoke
      simp only [hname]
      exact hrun

/-- A module with a function that calls itself without end, and a function that answers at once. -/
def descent : Module where
  imports := []
  functions := [
    { name := "down", params := [], result := .none, locals := [], isExported := true
      body := .call 0 [] .none },
    { name := "seven", params := [], result := .i32, locals := [], isExported := true
      body := .i32Const 7 }]

/-- An invocation that has run out of room leaves a machine that answers, once it is given fuel. -/
theorem descent_reused :
    let env : Environment Unit := ⟨descent, fun _ => none⟩
    ∃ s, env.Ends "down" [] ⟨[], none, 0, ()⟩ (.error (.trap .callStackExhausted) s) ∧
      let t : State Unit := { s with fuel := some 1 }
      Reused descent t ∧ env.Ends "seven" [] t (.ok (some (.i32 7)) ⟨[], some 0, 0, ()⟩) := by
  intro env
  have htrap : trap? (env.invoke 128 "down" [] ⟨[], none, 0, ()⟩) = some .callStackExhausted := by
    decide +kernel
  obtain ⟨s, hrun⟩ := trap?_eq_some htrap
  have hdown : env.Ends "down" [] ⟨[], none, 0, ()⟩ (.error (.trap .callStackExhausted) s) :=
    ⟨⟨128, hrun⟩, fun t ht => by cases ht⟩
  -- The same machine goes on with the state that the trap left behind.
  have hreused : Reused descent { s with fuel := some 1 } :=
    .supplied (some 1) () (.invoked (.fresh none ()) hdown)
  obtain ⟨-, hsame⟩ := invoke_reused hreused
  refine ⟨s, hdown, hreused, ((hsame (fun _ => none) "seven" []).1 _).2 ?_⟩
  exact ⟨⟨1, rfl⟩, fun t ht => by cases ht⟩

end Weir.Machine
