import Mathlib
import Weir.Proofs.FuelUse

/-!
# Limits on fuel

More fuel changes nothing about a run that had enough. A run with less fuel does the same up to the
point where its fuel is used up, and stops there: nothing in the code can tell that fuel is short
before it is gone, and nothing goes on after it.

## Key results

- `fuelCoupling`: runs that differ in their fuel by a fixed amount, and what is left of the one that
  stops first
- `call_ahead`: what calls do with more fuel
- `invoke_with_surplus`, `invoke_with_less`: a run compared with one that has more or less fuel
- `invoke_of_fuel`: how an invocation ends with any fuel, from how it ends with enough
-/

namespace Weir.Machine

open Weir.Code

variable {σ : Type}

/-! ## Calls of hosts -/

/-- A call of a host: the number of the import and the arguments. -/
structure HostCall where
  callee : Nat
  args : List Value
  deriving DecidableEq

/-- The calls of hosts can be read off the world: every host adds its call to those before it. -/
def Environment.Records (env : Environment σ) (calls : σ → List HostCall) : Prop :=
  ∀ id host, env.host? id = some host → ∀ args world,
    match host args world with
    | .ok _ world' | .error _ world' => calls world' = calls world ++ [⟨id, args⟩]

/-- Hosts that also write their calls down. -/
def Environment.recording (env : Environment σ) : Environment (σ × List HostCall) where
  module := env.module
  host? id := (env.host? id).map fun host args world =>
    match host args world.1 with
    | .ok v inner => .ok v (inner, world.2 ++ [⟨id, args⟩])
    | .error reason inner => .error reason (inner, world.2 ++ [⟨id, args⟩])

/-- An environment that records its calls does so. -/
theorem Environment.recording_records (env : Environment σ) : env.recording.Records Prod.snd := by
  intro id host hhost args world
  obtain ⟨inner, -, rfl⟩ := Option.map_eq_some_iff.1 hhost
  dsimp only
  cases inner args world.1 <;> rfl

/-! ## Runs with more fuel -/

/-- The fuel that is `surplus` more than `n`; without a surplus there is no limit. -/
def ahead (surplus : Option Nat) (n : Nat) : Option Nat := surplus.map (n + ·)

/-- The second run has more fuel than the first one, by a fixed surplus. It goes on where the first
    one is out of fuel, and spends of its surplus from then on. -/
def fuelCoupling (calls : σ → List HostCall) (surplus : Option Nat) : Coupling σ where
  inStep fuel world fuel' world' :=
    (∃ n, fuel = some n ∧ fuel' = ahead surplus n) ∧ world = world'
  cut e fuel world fuel' world' :=
    e = .trap .outOfFuel ∧ fuel = some 0 ∧ calls world <+: calls world' ∧
      ∀ m, surplus = some m → ∃ left, fuel' = some left ∧ left < m

section

variable {calls : σ → List HostCall} {surplus : Option Nat}

/-- Both runs spend their fuel in step until the first one has none left. -/
private theorem coupled_spend :
    Coupled (fuelCoupling calls surplus) (Run.spend : Run σ Unit) Run.spend where
  ends s t hst := by
    obtain ⟨⟨n, hs, ht⟩, hworld⟩ := hst.outer
    -- With fuel left, both runs go on. Without it, the first one ends, and the second one may have
    -- a surplus.
    cases n with
    | succ n =>
      have hrun : Run.spend s = .ok () { s with fuel := some n } := by simp only [Run.spend, hs]
      have hrun' : Run.spend t = .ok () { t with fuel := ahead surplus n } := by
        cases surplus with
        | none =>
          have ht : t.fuel = none := ht
          simp only [Run.spend, ht, ahead, Option.map_none]
          rw [← ht]
        | some m =>
          have ht : t.fuel = some (n + m + 1) := by
            rw [ht, ahead, Option.map_some, Nat.add_right_comm]
          simp only [Run.spend, ht, ahead, Option.map_some]
      rw [hrun, hrun']
      exact .ok ⟨hst.locals, hst.depth, ⟨n, rfl, rfl⟩, hworld⟩
    | zero =>
      have hrun : Run.spend s = .error (.trap .outOfFuel) s := by simp only [Run.spend, hs]
      have hcalls : calls s.world <+: calls t.world := hworld ▸ List.prefix_rfl
      rw [hrun]
      cases surplus with
      | none =>
        have hrun' : Run.spend t = .ok () t := by
          have ht : t.fuel = none := ht
          simp only [Run.spend, ht]
        rw [hrun']
        exact .cut ⟨rfl, rfl, hs, hcalls, fun m hm => by cases hm⟩
      | some m =>
        have ht : t.fuel = some m := by rw [ht, ahead, Option.map_some, Nat.zero_add]
        cases m with
        | zero =>
          have hrun' : Run.spend t = .error (.trap .outOfFuel) t := by simp only [Run.spend, ht]
          rw [hrun']
          exact .error hst
        | succ m =>
          have hrun' : Run.spend t = .ok () { t with fuel := some m } := by
            simp only [Run.spend, ht]
          rw [hrun']
          refine .cut ⟨rfl, rfl, hs, hcalls, fun k hk => ⟨m, rfl, ?_⟩⟩
          cases hk
          exact Nat.lt_succ_self m
  stable e s := by
    refine keeps_spend (fun t n hcut ht => ⟨hcut.abort, ?_⟩) trivial
    obtain ⟨he, hs, hcalls, hleft⟩ := hcut.outer
    refine ⟨he, hs, hcalls, fun m hm => ⟨n, rfl, ?_⟩⟩
    -- What is left of the surplus only gets less.
    obtain ⟨left, hleft, hlt⟩ := hleft m hm
    rw [ht] at hleft
    cases hleft
    omega

/-- Both runs call the same hosts in the same world. -/
private theorem coupled_host {env : Environment σ} (hcalls : env.Records calls) {id : Nat}
    {host : Host σ} (hhost : env.host? id = some host) (args : List Value) :
    Coupled (fuelCoupling calls surplus) (runHost host args) (runHost host args) where
  ends s t hst := by
    obtain ⟨hfuel, hworld⟩ := hst.outer
    unfold runHost
    rw [hworld]
    cases host args t.world with
    | ok v world => exact .ok ⟨hst.locals, hst.depth, hfuel, rfl⟩
    | error reason world => exact .error ⟨hst.locals, hst.depth, hfuel, rfl⟩
  -- A host that is called later only adds to the record.
  stable e s t hcut := by
    have hgrows := hcalls id host hhost args t.world
    obtain ⟨he, hs, hprefix, hleft⟩ := hcut.outer
    unfold runHost
    cases hrun : host args t.world with
    | ok v world =>
      rw [hrun] at hgrows
      exact ⟨⟨hcut.abort, he, hs, hgrows ▸ hprefix.trans (List.prefix_append _ _), hleft⟩, trivial⟩
    | error reason world =>
      rw [hrun] at hgrows
      exact ⟨⟨hcut.abort, he, hs, hgrows ▸ hprefix.trans (List.prefix_append _ _), hleft⟩, trivial⟩

/-- A call does the same with more fuel, up to the point where its fuel is used up. -/
theorem call_ahead {env : Environment σ} (hcalls : env.Records calls) (clock : Nat) :
    CallsCoupled (fuelCoupling calls surplus) (env.call clock) (env.call clock) :=
  call_coupled coupled_spend (fun _ _ hhost args => coupled_host hcalls hhost args) (.refl clock)

/-- An invocation with a surplus of fuel stays in step. -/
private theorem invoke_ahead {env : Environment σ} (hcalls : env.Records calls) (clock : Nat)
    (name : String) (args : List Value) :
    Coupled (fuelCoupling calls surplus) (env.invoke clock name args)
      (env.invoke clock name args) := by
  unfold Environment.invoke
  cases env.module.findFunction? name with
  | none => exact coupled_trap _
  | some id => exact call_ahead hcalls clock id args

end

/-! ## Endings with other fuel -/

/-- The same end of a run with other fuel left. -/
def refuel (fuel : Option Nat) :
    EStateM.Result Exit (State σ) α → EStateM.Result Exit (State σ) α
  | .ok a s => .ok a { s with fuel }
  | .error e s => .error e { s with fuel }

section

variable {r r' : EStateM.Result Exit (State σ) α} {fuel fuel' : Option Nat}

/-- Only the last exchange of fuel counts. -/
private theorem refuel_refuel : refuel fuel (refuel fuel' r) = refuel fuel r := by
  cases r <;> rfl

/-- Fuel that is there may be exchanged for itself. -/
private theorem refuel_self (h : (final r).fuel = fuel) : refuel fuel r = r := by
  subst h
  cases r <;> rfl

private theorem final_refuel : final (refuel fuel r) = { final r with fuel } := by
  cases r <;> rfl

/-- Whether a run is over does not depend on its fuel. -/
private theorem isOver_refuel : IsOver (refuel fuel r) ↔ IsOver r := by
  cases r with
  | ok a s => exact ⟨fun _ => isOver_ok a s, fun _ => isOver_ok a _⟩
  | error e s =>
    constructor
    · rintro h t ⟨⟩
      exact h _ rfl
    · rintro h t ⟨⟩
      exact h _ rfl

end

/-- How the ends of two runs compare that differ in their fuel: the second one has the surplus left
    over, or the first one ran out of fuel after some of the calls of the second one. -/
private theorem fuelCoupling_matches {calls : σ → List HostCall} {surplus : Option Nat}
    {r r' : EStateM.Result Exit (State σ) α} (h : (fuelCoupling calls surplus).Matches r r') :
    (∃ left, (final r).fuel = some left ∧ r' = refuel (ahead surplus left) r) ∨
      ∃ t, r = .error (.trap .outOfFuel) t ∧ t.fuel = some 0 ∧
        calls t.world <+: calls (final r').world ∧
        ∀ m, surplus = some m → ∃ left, (final r').fuel = some left ∧ left < m := by
  have hagree : ∀ {s t : State σ}, (fuelCoupling calls surplus).Agree s t →
      ∃ left, s.fuel = some left ∧ t = { s with fuel := ahead surplus left } := by
    rintro ⟨locals, fuel, depth, world⟩ ⟨_, _, _, _⟩ ⟨rfl, rfl, ⟨left, rfl, rfl⟩, rfl⟩
    exact ⟨left, rfl, rfl⟩
  -- Runs that end alike differ in their fuel only, and what is cut short has used up all of it.
  cases h with
  | ok h =>
    obtain ⟨left, hleft, rfl⟩ := hagree h
    exact .inl ⟨left, hleft, rfl⟩
  | error h =>
    obtain ⟨left, hleft, rfl⟩ := hagree h
    exact .inl ⟨left, hleft, rfl⟩
  | cut h =>
    obtain ⟨rfl, hfuel, hcalls, hleft⟩ := h.outer
    exact .inr ⟨_, rfl, hfuel, hcalls, hleft⟩

section

variable {env : Environment σ} {calls : σ → List HostCall} {clock : Nat} {name : String}
  {args : List Value} {s : State σ} {fuel : Nat} {r : EStateM.Result Exit (State σ) (Option Value)}

/-- A run that does not run out of fuel does the same with a surplus, and has the surplus left. -/
theorem invoke_with_surplus (hcalls : env.Records calls)
    (hrun : env.invoke clock name args { s with fuel := some fuel } = r)
    (hfuel : ∀ t, r ≠ .error (.trap .outOfFuel) t) (surplus : Option Nat) :
    ∃ left, (final r).fuel = some left ∧
      env.invoke clock name args { s with fuel := ahead surplus fuel } =
        refuel (ahead surplus left) r := by
  have hmatches : (fuelCoupling calls surplus).Matches r
      (env.invoke clock name args { s with fuel := ahead surplus fuel }) :=
    hrun ▸ (invoke_ahead hcalls clock name args).ends _ _ ⟨rfl, rfl, ⟨fuel, rfl, rfl⟩, rfl⟩
  obtain hleft | ⟨t, hout, -⟩ := fuelCoupling_matches hmatches
  · exact hleft
  · exact absurd hout (hfuel t)

/-- A run does the same with less fuel if it leaves the difference. If it does not, the run with
    less fuel runs out of it. -/
theorem invoke_with_less (hcalls : env.Records calls)
    (hrun : env.invoke clock name args { s with fuel := some fuel } = r) {left : Nat}
    (hleft : (final r).fuel = some left) {less : Nat} (hless : less < fuel) :
    (∃ left', left = left' + (fuel - less) ∧
        env.invoke clock name args { s with fuel := some less } = refuel (some left') r) ∨
      left < fuel - less ∧
        ∃ t, env.invoke clock name args { s with fuel := some less } =
            .error (.trap .outOfFuel) t ∧
          t.fuel = some 0 ∧ calls t.world <+: calls (final r).world := by
  have hmatches : (fuelCoupling calls (some (fuel - less))).Matches
      (env.invoke clock name args { s with fuel := some less })
      (env.invoke clock name args { s with fuel := ahead (some (fuel - less)) less }) :=
    (invoke_ahead hcalls clock name args).ends _ _ ⟨rfl, rfl, ⟨less, rfl, rfl⟩, rfl⟩
  -- The run that is known is the one with the surplus here.
  have hsurplus : ahead (some (fuel - less)) less = some fuel := by
    rw [ahead, Option.map_some, Nat.add_sub_of_le (Nat.le_of_lt hless)]
  rw [hsurplus, hrun] at hmatches
  obtain ⟨left', hleft', hr⟩ | ⟨t, hout, hempty, hprefix, hlt⟩ := fuelCoupling_matches hmatches
  · refine .inl ⟨left', ?_, ?_⟩
    · rw [hr, final_refuel] at hleft
      exact (Option.some.inj hleft).symm
    · rw [hr, refuel_refuel, refuel_self hleft']
  · obtain ⟨left', hleft', hlt⟩ := hlt _ rfl
    rw [hleft] at hleft'
    cases hleft'
    exact .inr ⟨hlt, t, hout, hempty, hprefix⟩

end

/-- Fuel only cuts runs short. Suppose that an invocation ends in anything but a lack of fuel, and
    that the calls of hosts can be read off the world. Then it ends in the same way with any fuel
    that covers what it used, and with no limit, and uses the same. With less it runs out of fuel,
    leaves none, and has called the hosts as the full run began to. -/
theorem invoke_of_fuel {env : Environment σ} {calls : σ → List HostCall}
    (hcalls : env.Records calls) {name : String} {args : List Value} {s : State σ} {fuel : Nat}
    {r : EStateM.Result Exit (State σ) (Option Value)}
    (hends : env.Ends name args { s with fuel := some fuel } r)
    (hfuel : ∀ t, r ≠ .error (.trap .outOfFuel) t) :
    ∃ used, used ≤ fuel ∧ (final r).fuel = some (fuel - used) ∧
      (∀ more, used ≤ more →
        env.Ends name args { s with fuel := some more } (refuel (some (more - used)) r)) ∧
      env.Ends name args { s with fuel := none } (refuel none r) ∧
      ∀ less, less < used → ∃ t,
        env.Ends name args { s with fuel := some less } (.error (.trap .outOfFuel) t) ∧
          t.fuel = some 0 ∧ calls t.world <+: calls (final r).world := by
  -- All of the runs are compared on the clock of the one that is known to end.
  obtain ⟨⟨clock, hrun⟩, hover⟩ := hends
  have hahead := invoke_with_surplus hcalls hrun hfuel
  obtain ⟨left, hleft, hunlimited⟩ := hahead none
  have hbound : left ≤ fuel := by
    obtain ⟨⟨left', hleft', hsum⟩, -⟩ :=
      invoke_accounts env clock name args { s with fuel := some fuel } fuel rfl
    rw [hrun, hleft] at hleft'
    cases hleft'
    omega
  refine ⟨fuel - left, Nat.sub_le _ _, ?_, fun more hmore => ?_, ?_, fun less hless => ?_⟩
  · rw [hleft, Nat.sub_sub_self hbound]
  · refine ⟨⟨clock, ?_⟩, isOver_refuel.2 hover⟩
    by_cases hle : fuel ≤ more
    · obtain ⟨left', hleft', hrun'⟩ := hahead (some (more - fuel))
      rw [hleft] at hleft'
      cases hleft'
      have hsum : fuel + (more - fuel) = more := Nat.add_sub_of_le hle
      have hrest : left + (more - fuel) = more - (fuel - left) := by omega
      rwa [ahead, ahead, Option.map_some, Option.map_some, hsum, hrest] at hrun'
    · obtain ⟨left', hsum, hrun'⟩ | ⟨hlt, -⟩ :=
        invoke_with_less hcalls hrun hleft (Nat.lt_of_not_le hle)
      · have hrest : left' = more - (fuel - left) := by omega
        rw [hrun', hrest]
      · omega
  · exact ⟨⟨clock, hunlimited⟩, isOver_refuel.2 hover⟩
  · obtain ⟨left', hsum, -⟩ | ⟨-, t, hout, hempty, hprefix⟩ :=
      invoke_with_less hcalls hrun hleft (show less < fuel by omega)
    · omega
    · exact ⟨t, ⟨⟨clock, hout⟩, isOver_error (by simp) t⟩, hempty, hprefix⟩

/-- A countdown from two uses six units of fuel, whatever it is given beyond that. -/
theorem countdown_of_fuel :
    let env : Environment (Nat × List HostCall) :=
      Environment.recording ⟨countdown, fun _ => some countingHost⟩
    let start (fuel : Option Nat) : State (Nat × List HostCall) := ⟨[], fuel, 0, 0, []⟩
    let ended (fuel : Option Nat) : EStateM.Result Exit (State (Nat × List HostCall)) _ :=
      .ok none ⟨[], fuel, 0, 2, [⟨0, [.i32 2]⟩, ⟨0, [.i32 1]⟩]⟩
    env.Ends "main" [.i32 2] (start (some 9)) (ended (some 3)) ∧
      (∀ more, 6 ≤ more →
        env.Ends "main" [.i32 2] (start (some more)) (ended (some (more - 6)))) ∧
      env.Ends "main" [.i32 2] (start none) (ended none) ∧
      ∀ less, less < 6 → ∃ t,
        env.Ends "main" [.i32 2] (start (some less)) (.error (.trap .outOfFuel) t) ∧
          t.fuel = some 0 ∧ t.world.2 <+: [⟨0, [.i32 2]⟩, ⟨0, [.i32 1]⟩] := by
  intro env start ended
  have hrun : env.invoke 5 "main" [.i32 2] (start (some 9)) = ended (some 3) := by cbv
  have hends : env.Ends "main" [.i32 2] (start (some 9)) (ended (some 3)) :=
    ⟨⟨5, hrun⟩, isOver_ok _ _⟩
  have hfuel : ∀ t, ended (some 3) ≠ .error (.trap .outOfFuel) t := fun t h => by cases h
  have hcalls : env.Records Prod.snd := Environment.recording_records _
  obtain ⟨used, hle, hleft, hmore, hnone, hless⟩ :=
    invoke_of_fuel hcalls (s := start none) hends hfuel
  obtain rfl : used = 6 := by
    have hleft : 3 = 9 - used := Option.some.inj hleft
    omega
  exact ⟨hends, hmore, hnone, hless⟩

end Weir.Machine
