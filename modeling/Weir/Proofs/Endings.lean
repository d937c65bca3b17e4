import Weir.Proofs.CoupledRuns

/-!
# How invocations end

The clock of a run is no part of what is run: a run that is over at the end of one clock ends the
same way on every longer one. So an invocation has one ending, or none at all if it goes on without
bound, and `Environment.Ends` says which without a clock.

## Key results

- `call_of_le_clock`, `invoke_of_le_clock`: a longer clock changes nothing once a run is over
- `Environment.Ends.unique`: an invocation has at most one ending
-/

namespace Weir.Machine

open Weir.Code

variable {σ α : Type}

/-- A run that did not come to the end of its clock. -/
def IsOver (r : EStateM.Result Exit (State σ) α) : Prop := ∀ s, r ≠ .error .stalled s

/-! ## Clocks -/

/-- Runs on clocks of different lengths do the same up to the end of the shorter one. -/
def clockCoupling (σ : Type) : Coupling σ where
  inStep fuel world fuel' world' := fuel = fuel' ∧ world = world'
  cut e _ _ _ _ := e = .stalled

/-- Runs that differ in their clocks only have equal states. -/
private theorem clockCoupling_agree {s t : State σ} : (clockCoupling σ).Agree s t ↔ s = t := by
  constructor
  · rintro ⟨hlocals, hdepth, hfuel, hworld⟩
    cases s
    cases t
    simp_all
  · rintro rfl
    exact ⟨rfl, rfl, rfl, rfl⟩

/-- A run is cut short by its clock alone. -/
private theorem clockCoupling_cut {e : Exit} {s t : State σ} :
    (clockCoupling σ).Cut e s t ↔ e = .stalled :=
  ⟨fun h => h.outer, fun h => ⟨by rw [h]; rfl, h⟩⟩

/-- Runs without a clock do the same in the same state. -/
private theorem coupled_of_eq {x : Run σ α} : Coupled (clockCoupling σ) x x where
  ends s t hst := by
    rw [clockCoupling_agree.1 hst]
    cases x t with
    | ok a s' => exact .ok (clockCoupling_agree.2 rfl)
    | error e s' => exact .error (clockCoupling_agree.2 rfl)
  stable e s t hcut := by
    rw [clockCoupling_cut] at hcut
    cases x t with
    | ok a t' => exact ⟨clockCoupling_cut.2 hcut, trivial⟩
    | error e' t' => exact ⟨clockCoupling_cut.2 hcut, trivial⟩

variable {env : Environment σ} {clock clock' id : Nat} {name : String} {args : List Value}
  {s : State σ} {r r' : EStateM.Result Exit (State σ) (Option Value)}

/-- A call that is over ends the same way on a longer clock. -/
theorem call_of_le_clock (hle : clock ≤ clock') (h : env.call clock id args s = r)
    (hover : IsOver r) : env.call clock' id args s = r := by
  have hclocks : (clockCoupling σ).Clocks clock clock' :=
    ⟨hle, fun _ _ _ _ => clockCoupling_cut.2 rfl⟩
  have hcalls : CallsCoupled (clockCoupling σ) (env.call clock) (env.call clock') :=
    call_coupled coupled_of_eq (fun _ _ _ _ => coupled_of_eq) hclocks
  have hends := (hcalls id args).ends s s (clockCoupling_agree.2 rfl)
  rw [h] at hends
  generalize env.call clock' id args s = r' at hends ⊢
  -- A result that is over is not one that the clock has stopped.
  cases hends with
  | ok hst => rw [clockCoupling_agree.1 hst]
  | error hst => rw [clockCoupling_agree.1 hst]
  | @cut e t _ hcut =>
    rw [clockCoupling_cut.1 hcut] at hover
    exact absurd rfl (hover t)

/-- An invocation that is over ends the same way on a longer clock. -/
theorem invoke_of_le_clock (hle : clock ≤ clock') (h : env.invoke clock name args s = r)
    (hover : IsOver r) : env.invoke clock' name args s = r := by
  unfold Environment.invoke at h ⊢
  cases hfind : env.module.findFunction? name with
  | none =>
    rw [hfind] at h
    exact h
  | some id =>
    simp only [hfind] at h ⊢
    exact call_of_le_clock hle h hover

/-! ## Endings -/

/-- An invocation ends in a result or a trap, if the clock is long enough for it. -/
structure Environment.Ends (env : Environment σ) (name : String) (args : List Value) (s : State σ)
    (r : EStateM.Result Exit (State σ) (Option Value)) : Prop where
  run : ∃ clock, env.invoke clock name args s = r
  ended : IsOver r

/-- An invocation that ends does so on every clock from some length on. -/
private theorem Environment.Ends.eventually (h : env.Ends name args s r) :
    ∃ clock, ∀ clock', clock ≤ clock' → env.invoke clock' name args s = r := by
  obtain ⟨clock, hrun⟩ := h.run
  exact ⟨clock, fun clock' hle => invoke_of_le_clock hle hrun h.ended⟩

/-- An invocation has at most one ending. -/
theorem Environment.Ends.unique (h : env.Ends name args s r) (h' : env.Ends name args s r') :
    r = r' := by
  obtain ⟨clock, hrun⟩ := h.eventually
  obtain ⟨clock', hrun'⟩ := h'.eventually
  have hleft := hrun (max clock clock') (Nat.le_max_left _ _)
  have hright := hrun' (max clock clock') (Nat.le_max_right _ _)
  rw [← hleft, hright]

end Weir.Machine
