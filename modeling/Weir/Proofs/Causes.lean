import Weir.Proofs.RunInvariant

/-!
# Causes of traps

Some traps are over something that is missing: code that could not be compiled, a value where one
is needed, or room for another call. No operator raises them, and neither does reading or writing a
local. `Explains` follows such a trap back through a run to where it was raised.

## Key results

- `Explains.bind`, `Explains.catching`, `Explains.repeating`: a trap in a run is one in a part of it
- `enter_eq_lack_or_host`, `enter_eq_lack`: a trap in a call is one in the body that the call runs,
  or in the host
-/

namespace Weir.Machine

open Weir.Code

variable {σ α β : Type} {reason : Trap}

/-- Traps over something that is missing: an `unreachable` node, a value that is not there, and no
    room for another call. -/
def Trap.isLack : Trap → Bool
  | unreachable | missingValue | callStackExhausted => true
  | _ => false

/-- No operator traps over something that is missing. -/
theorem ne_error_of_isLack {r : Except Trap α} (hreason : reason.isLack)
    (h : ∀ t, r = .error t → t.isOfOperands) : r ≠ .error reason := by
  intro heq
  have hoperands := h reason heq
  cases reason with
  | unreachable | missingValue | callStackExhausted => cases hoperands
  | _ => cases hreason

/-! ## Runs -/

/-- The trap that a run ends in, if it ends in one. -/
def trap? (r : EStateM.Result Exit (State σ) α) : Option Trap :=
  match r with
  | .error (.trap reason) _ => some reason
  | _ => none

/-- A result with a reason is a trap for that reason. -/
theorem trap?_eq_some {r : EStateM.Result Exit (State σ) α} (h : trap? r = some reason) :
    ∃ s, r = .error (.trap reason) s := by
  unfold trap? at h
  split at h
  next reason' s =>
    obtain rfl := Option.some.inj h
    exact ⟨s, rfl⟩
  next => cases h

/-- The states in which the rounds of a loop start, as many of them as the clock allows. -/
inductive Rounds (label : Label) (body : Run σ (Option Value)) : Nat → State σ → State σ → Prop
  | first {clock s t} (hspend : Run.spend s = .ok () t) : Rounds label body (clock + 1) s t
  | next {clock s t u v} (hspend : Run.spend s = .ok () t)
      (hbody : body t = .error (.branch label) u) (h : Rounds label body clock u v) :
      Rounds label body (clock + 1) s v

/-- What one round keeps holds at the start of every round. -/
theorem Rounds.invariant {I : State σ → Prop} {label : Label} {body : Run σ (Option Value)}
    {Q : Option Value → Prop} {E F : Exit → Prop} {clock : Nat} {s t : State σ}
    (h : Rounds label body clock s t) (hbody : Keeps I body Q E)
    (hspend : Keeps I Run.spend (fun _ => True) F) (hs : I s) : I t := by
  induction h with
  | first hfuel => exact (hspend.of_ok hs hfuel).1
  | next hfuel hagain _ ih =>
    have hstart := (hspend.of_ok hs hfuel).1
    exact ih (hbody.of_error hstart hagain).1

/-- If the run traps for the reason when it is started in `s`, it ends in a state for which there is
    the given cause. -/
def Explains (reason : Trap) (cause : State σ → Prop) (run : Run σ α) (s : State σ) : Prop :=
  ∀ s', run s = .error (.trap reason) s' → cause s'

namespace Explains

variable {cause : State σ → Prop} {s : State σ}

/-- A run that ends otherwise leaves nothing to explain. -/
private theorem of_ne {run : Run σ α} (h : ∀ s', run s ≠ .error (.trap reason) s') :
    Explains reason cause run s :=
  fun s' hrun => absurd hrun (h s')

/-- What yields a value does not trap. -/
theorem pure (a : α) : Explains reason cause (Pure.pure a : Run σ α) s :=
  of_ne fun _ h => by cases h

/-- What ends otherwise does not trap for the reason. -/
theorem throw {e : Exit} (h : e ≠ .trap reason) :
    Explains reason cause (MonadExcept.throw e : Run σ α) s :=
  of_ne fun _ hrun => by cases hrun; exact h rfl

/-- The second step starts where the first one ended. -/
theorem bind {x : Run σ α} {f : α → Run σ β} (hx : Explains reason cause x s)
    (hf : ∀ a t, x s = .ok a t → Explains reason cause (f a) t) :
    Explains reason cause (x >>= f) s := by
  intro s' h
  rw [Run.bind_apply] at h
  cases hrun : x s with
  | ok a t =>
    rw [hrun] at h
    exact hf a t hrun s' h
  | error e t =>
    rw [hrun] at h
    cases h
    exact hx _ hrun

/-- A check that does not fail for the reason does not trap for it. -/
theorem ofExcept {r : Except Trap α} (h : r ≠ .error reason) :
    Explains reason cause (Run.ofExcept r : Run σ α) s := by
  cases r with
  | ok a => exact pure a
  | error t => exact throw fun heq => h (by cases heq; rfl)

/-- Where a value is asked for, there has to be one. -/
theorem value {run : Run σ (Option Value)} (h : Explains reason cause run s)
    (hvalue : reason = .missingValue → ∀ t, run s ≠ .ok none t) :
    Explains reason cause (Run.value run) s := by
  refine h.bind fun v t hv => ?_
  cases v with
  | none => exact throw fun heq => hvalue (by cases heq; rfl) t hv
  | some v => exact pure v

/-- A condition lacks its value exactly where the computation of it does. -/
theorem condition {run : Run σ (Option Value)} (hreason : reason.isLack)
    (h : Explains reason cause run s)
    (hvalue : reason = .missingValue → ∀ t, run s ≠ .ok none t) :
    Explains reason cause (Run.condition run) s := by
  refine (h.value hvalue).bind fun v t _ => ?_
  exact (ofExcept (ne_error_of_isLack hreason fun _ => toI32_eq_error)).bind fun a u _ => pure _

/-- A want of fuel is none of the reasons. -/
private theorem spend (hreason : reason.isLack) :
    Explains reason cause (Run.spend : Run σ Unit) s := by
  refine of_ne fun s' h => ?_
  cases Run.eq_outOfFuel_of_spend h
  cases hreason

/-- A missing local is none of the reasons. -/
theorem getLocal (hreason : reason.isLack) {index : Nat} :
    Explains reason cause (Run.getLocal index : Run σ Value) s := by
  refine of_ne fun s' h => ?_
  unfold Run.getLocal at h
  split at h <;> cases h
  cases hreason

/-- A local that cannot be set is none of the reasons. -/
theorem setLocal (hreason : reason.isLack) {index : Nat} {v : Value} :
    Explains reason cause (Run.setLocal index v : Run σ Unit) s := by
  refine of_ne fun s' h => ?_
  unfold Run.setLocal at h
  repeat' split at h
  all_goals cases h
  all_goals cases hreason

/-- The result of an operator is all that is left to do. -/
theorem operator {r : Except Trap Value} (hreason : reason.isLack)
    (h : ∀ t, r = .error t → t.isOfOperands) :
    Explains reason cause (do let v ← Run.ofExcept r; Pure.pure (some v) : Run σ (Option Value))
      s :=
  (ofExcept (ne_error_of_isLack hreason h)).bind fun _ _ _ => pure _

/-- A block passes on what it does not catch. -/
theorem catching {label : Label} {run : Run σ (Option Value)} (h : Explains reason cause run s) :
    Explains reason cause (Run.catching label run) s := by
  intro s' hrun
  cases hinner : run s with
  | ok v t =>
    rw [Run.catching_of_ok hinner] at hrun
    cases hrun
  | error e t =>
    -- The block catches its own jump only, and hands on the trap.
    by_cases he : e = .branch label
    · subst he
      rw [Run.catching_of_branch hinner] at hrun
      cases hrun
    · rw [Run.catching_of_error hinner he] at hrun
      cases hrun
      exact h _ hinner

/-- A loop passes on what one of its rounds ends with. -/
theorem repeating (hreason : reason.isLack) {label : Label} {body : Run σ (Option Value)}
    (clock : Nat) : ∀ {s : State σ},
    (∀ t, Rounds label body clock s t → Explains reason cause body t) →
      Explains reason cause (Run.repeating label body clock) s := by
  -- The induction is on the clock. The trap is that of this round, or of the rounds after it.
  induction clock with
  | zero => exact fun _ => throw (by simp)
  | succ clock ih =>
    intro s h s' hrun
    cases hfuel : Run.spend s with
    | error e t =>
      rw [Run.repeating_of_spend_error hfuel, Run.eq_outOfFuel_of_spend hfuel] at hrun
      cases hrun
      cases hreason
    | ok u t =>
      cases hbody : body t with
      | ok v t' =>
        rw [Run.repeating_of_ok hfuel hbody] at hrun
        cases hrun
      | error e t' =>
        by_cases he : e = .branch label
        · subst he
          rw [Run.repeating_of_branch hfuel hbody] at hrun
          exact ih (fun v hv => h v (.next hfuel hbody hv)) s' hrun
        · rw [Run.repeating_of_error hfuel hbody he] at hrun
          cases hrun
          exact h t (.first hfuel) _ hbody

end Explains

/-! ## Calls -/

/-- No host fails for the given reason. -/
def Environment.HostsSpare (env : Environment σ) (reason : Trap) : Prop :=
  ∀ id host, env.host? id = some host → ∀ args w w', host args w ≠ .error reason w'

/-- Hosts that fail as hosts do not trap for a lack. -/
theorem Environment.HostsFailAsHosts.spare {env : Environment σ} (h : env.HostsFailAsHosts)
    (hreason : reason.isLack) : env.HostsSpare reason := by
  intro id host hhost args w w' hfail
  obtain ⟨text, rfl⟩ := h id host hhost args w reason w' hfail
  cases hreason

/-- A function traps over something missing in its body, or because its body has not left the value
    that is its result; or it is not run at all. -/
theorem runBody_eq_lack (hreason : reason.isLack) {run : Node → Run σ (Option Value)}
    {f : Function} {args : List Value} {s s' : State σ}
    (h : runBody run f args s = .error (.trap reason) s') :
    (reason = .callStackExhausted ∧ s.depth = maxDepth) ∨
    (reason = .missingValue ∧ (f.locals.mapM fun l => Value.zero? l.slot) = none) ∨
    ∃ zeros inner, s.depth ≠ maxDepth ∧
      f.locals.mapM (fun l => Value.zero? l.slot) = some zeros ∧
      let result := run f.body { s with locals := args ++ zeros, depth := s.depth + 1 }
      (result = .error (.trap reason) inner ∨ (reason = .missingValue ∧ f.result ≠ .none ∧
        (result = .ok none inner ∨ result = .error (.finish none) inner))) := by
  -- A body is refused at the full depth, or for want of zeros, before it is run.
  by_cases hdepth : s.depth = maxDepth
  · simp only [runBody, if_pos hdepth] at h
    cases h
    exact .inl ⟨rfl, hdepth⟩
  cases hzeros : f.locals.mapM fun l => Value.zero? l.slot with
  | none =>
    simp only [runBody, if_neg hdepth, hzeros] at h
    cases h
    exact .inr (.inl ⟨rfl, rfl⟩)
  | some zeros =>
    simp only [runBody, if_neg hdepth, hzeros] at h
    refine .inr (.inr ⟨zeros, ?_⟩)
    cases hrun : run f.body { s with locals := args ++ zeros, depth := s.depth + 1 } with
    | ok v inner =>
      rw [hrun] at h
      refine ⟨inner, hdepth, rfl, .inr ?_⟩
      dsimp only at h
      split at h
      · cases h
      next hresult =>
        split at h
        · cases h
        · cases h
          exact ⟨rfl, hresult, .inl rfl⟩
    | error e inner =>
      rw [hrun] at h
      refine ⟨inner, hdepth, rfl, ?_⟩
      cases e with
      | trap t =>
        cases h
        exact .inl rfl
      | branch label =>
        cases h
        cases hreason
      | stalled => cases h
      | finish v =>
        -- A return is settled like the end of the body.
        dsimp only at h
        split at h
        · cases h
        next hresult =>
          split at h
          · cases h
          · cases h
            exact .inr ⟨rfl, hresult, .inr rfl⟩

/-- A call traps over something missing only in a function that it runs, or in a host that traps
    that way of itself. -/
theorem enter_eq_lack_or_host (hreason : reason.isLack) {env : Environment σ}
    {run : Node → Run σ (Option Value)} {id : Nat} {args : List Value} {s s' : State σ}
    (h : env.enter run id args s = .error (.trap reason) s') :
    ∃ t, Run.spend s = .ok () t ∧
      ((∃ f, env.module.callee? id = some (.defined f) ∧ args.map Value.slot = f.paramSlots ∧
        runBody run f args t = .error (.trap reason) s') ∨
      ∃ i host w, env.module.callee? id = some (.imported i) ∧ args.map Value.slot = i.params ∧
        env.host? id = some host ∧ host args t.world = .error reason w) := by
  suffices hcause : Explains reason (fun s' => ∃ t, Run.spend s = .ok () t ∧
      ((∃ f, env.module.callee? id = some (.defined f) ∧ args.map Value.slot = f.paramSlots ∧
        runBody run f args t = .error (.trap reason) s') ∨
      ∃ i host w, env.module.callee? id = some (.imported i) ∧ args.map Value.slot = i.params ∧
        env.host? id = some host ∧ host args t.world = .error reason w)) (env.enter run id args) s
    from hcause s' h
  -- After the fuel is spent, the checks of the callee and of its arguments fail for other reasons.
  refine (Explains.spend hreason).bind fun u t hspend => ?_
  cases hcallee : env.module.callee? id with
  | none => exact .throw fun heq => by cases heq; cases hreason
  | some c =>
    dsimp only
    by_cases hlen : c.params.length ≠ args.length
    · rw [if_pos hlen]
      exact .throw fun heq => by cases heq; cases hreason
    rw [if_neg hlen]
    cases hfind : findMismatch? c.params args with
    | some mismatch =>
      obtain ⟨expected, found, rfl⟩ := findMismatch?_eq_some hfind
      exact .throw fun heq => by cases heq; cases hreason
    | none =>
      have hslots := (findMismatch?_eq_none (Decidable.not_not.1 hlen)).1 hfind
      cases c with
      | imported i =>
        dsimp only
        cases hhost : env.host? id with
        | none => exact .throw fun heq => by cases heq; cases hreason
        | some host =>
          intro t' ht'
          simp only [runHost] at ht'
          cases hrun : host args t.world with
          | ok v w => rw [hrun] at ht'; cases ht'
          | error failure w =>
            rw [hrun] at ht'
            cases ht'
            exact ⟨t, hspend, .inr ⟨i, host, w, rfl, hslots, rfl, hrun⟩⟩
      | defined f => exact fun t' ht' => ⟨t, hspend, .inl ⟨f, rfl, hslots, ht'⟩⟩

/-- A call traps over something missing only in a function that it runs, if hosts do not trap that
    way of themselves. -/
theorem enter_eq_lack (hreason : reason.isLack) {env : Environment σ}
    (hhosts : env.HostsSpare reason) {run : Node → Run σ (Option Value)} {id : Nat}
    {args : List Value} {s s' : State σ} (h : env.enter run id args s = .error (.trap reason) s') :
    ∃ f t, Run.spend s = .ok () t ∧ env.module.callee? id = some (.defined f) ∧
      args.map Value.slot = f.paramSlots ∧ runBody run f args t = .error (.trap reason) s' := by
  obtain ⟨t, hspend, ⟨f, hf⟩ | ⟨i, host, w, -, -, hhost, hfail⟩⟩ := enter_eq_lack_or_host hreason h
  · exact ⟨f, t, hspend, hf⟩
  · exact absurd hfail (hhosts id host hhost args t.world w)

end Weir.Machine
