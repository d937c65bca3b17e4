import Weir.Machine.Eval

/-!
# Invariants of runs

`Keeps I run Q E` says of a run what it leaves true: started in a state in which `I` holds, it ends
in such a state again, with a result in `Q` or with an exit in `E`. The predicate is closed under
everything that runs are built from.

## Key results

- `binary_eq_error`, `unary_eq_error`, `convert_eq_error`: operators trap over their operands only
- `Keeps.bind`, `Keeps.value`, `Keeps.condition`: what consecutive steps keep
- `Keeps.catching`, `Keeps.repeating`: what blocks and loops keep, whatever the number of rounds
- `enter_callee`: what a call does that suits its callee
- `keeps_runBody`, `keeps_enter`: what a call keeps, from what the body of the callee keeps
-/

namespace Weir.Machine

open Weir.Code

variable {σ α β : Type}

/-- Exits that nothing on the way out of a function catches: traps, and the end of the clock. -/
def Exit.isAbort : Exit → Bool
  | branch _ | finish _ => false
  | trap _ | stalled => true

/-! ## Traps of operators -/

/-- Traps over the operands of an operator. -/
def Trap.isOfOperands : Trap → Bool
  | integerDivideByZero | integerOverflow | typeMismatch .. => true
  | unreachable | outOfFuel | unknownFunction _ | missingHost _ | arityMismatch ..
  | missingValue | unknownLocal _ | unboundLabel _ | callStackExhausted | host _ => false

section

variable {t : Trap}

/-- An operator on integers traps only over its operands. -/
private theorem onInts_eq_error {w : Nat} {inject : BitVec w → Value} {op : BinaryOp}
    {a b : BitVec w} (h : op.onInts inject a b = .error t) : t.isOfOperands := by
  cases op with
  | divS | divU | remS | remU =>
    -- Only divisions trap over numbers.
    unfold BinaryOp.onInts at h
    dsimp only at h
    repeat' split at h
    all_goals cases h
    all_goals rfl
  | _ => cases h <;> rfl

private theorem onFloats_eq_error {f : Format} {inject : Binary f → Value} {op : BinaryOp}
    {x y : Binary f} (h : op.onFloats inject x y = .error t) : t.isOfOperands := by
  cases op <;> cases h <;> rfl

/-- A binary operator traps only over its operands. -/
theorem binary_eq_error {op : BinaryOp} {v w : Value} (h : op.eval v w = .error t) :
    t.isOfOperands := by
  unfold BinaryOp.eval at h
  -- Both values are integers of a slot, or floats of a slot, or they do not match.
  split at h
  · exact onInts_eq_error h
  · exact onInts_eq_error h
  · exact onFloats_eq_error h
  · exact onFloats_eq_error h
  · cases h
    rfl

/-- A unary operator traps only over its operand. -/
theorem unary_eq_error {op : UnaryOp} {v : Value} (h : op.eval v = .error t) :
    t.isOfOperands := by
  cases op <;> cases v <;> cases h <;> rfl

/-- A conversion traps only over what it converts. -/
theorem convert_eq_error {c : Conversion} {v : Value} (h : c.eval v = .error t) :
    t.isOfOperands := by
  unfold Conversion.eval at h
  dsimp only at h
  split at h
  · cases h
  · cases h
    rfl

/-- A value is no 32-bit integer where it lies in another slot. -/
theorem toI32_eq_error {v : Value} (h : v.toI32 = .error t) : t.isOfOperands := by
  cases v <;> cases h <;> rfl

end

/-! ## What a run does, case by case -/

namespace Run

/-- A bind goes on with the result of its first step, in the state that this step left. -/
theorem bind_apply (x : Run σ α) (f : α → Run σ β) (s : State σ) :
    (x >>= f) s = match x s with
      | .ok a s' => f a s'
      | .error e s' => .error e s' := by
  simp only [bind, EStateM.bind]
  cases x s <;> rfl

variable {label : Label} {run : Run σ (Option Value)} {s s₁ s₂ : State σ} {v : Option Value}
  {e : Exit} {clock : Nat}

/-- The value of consecutive steps is that of the second one. -/
theorem value_bind (x : Run σ α) (f : α → Run σ (Option Value)) :
    value (x >>= f) = x >>= fun a => value (f a) :=
  bind_assoc ..

theorem value_pure_some (v : Value) : value (pure (some v) : Run σ (Option Value)) = pure v := by
  simp [value]

/-- A condition is tested at the end of what computes it. -/
theorem condition_bind (x : Run σ α) (f : α → Run σ (Option Value)) :
    condition (x >>= f) = x >>= fun a => condition (f a) := by
  simp only [condition, value_bind, bind_assoc]

/-- Only missing fuel keeps fuel from being spent. -/
theorem eq_outOfFuel_of_spend (h : spend s = .error e s₁) : e = .trap .outOfFuel := by
  unfold spend at h
  split at h
  · cases h
  · cases h; rfl
  · cases h

theorem catching_of_ok (h : run s = .ok v s₁) : catching label run s = .ok v s₁ := by
  simp only [catching, h]

/-- A branch to the label of a block ends the block, without a value. -/
theorem catching_of_branch (h : run s = .error (.branch label) s₁) :
    catching label run s = .ok none s₁ := by
  simp only [catching, h, if_pos]

/-- Every other exit leaves the block. -/
theorem catching_of_error (h : run s = .error e s₁) (he : e ≠ .branch label) :
    catching label run s = .error e s₁ := by
  cases e with
  | branch target =>
    have ht : target ≠ label := by simpa using he
    simp only [catching, h, if_neg ht]
  | finish v => simp only [catching, h]
  | trap t => simp only [catching, h]
  | stalled => simp only [catching, h]

/-- What a block does depends on what the run in it does. -/
theorem catching_congr {run' : Run σ (Option Value)} (h : run s = run' s₁) :
    catching label run s = catching label run' s₁ := by
  simp only [catching, h]

/-- A block within a block of the same label changes nothing. -/
theorem catching_bind_catching {x : Run σ α} {f : α → Run σ (Option Value)} :
    catching label (x >>= fun a => catching label (f a)) = catching label (x >>= f) := by
  funext s
  cases hx : x s with
  | error e s' =>
    refine catching_congr ?_
    rw [bind_apply, bind_apply, hx]
  | ok a s' =>
    have hleft : (x >>= fun a => catching label (f a)) s = catching label (f a) s' := by
      rw [bind_apply, hx]
    have hright : (x >>= f) s = f a s' := by
      rw [bind_apply, hx]
    rw [catching_congr hright]
    cases hf : f a s' with
    | ok v s'' =>
      rw [catching_of_ok hf] at hleft ⊢
      exact catching_of_ok hleft
    | error e s'' =>
      -- A branch to the label is caught by the inner block, and any other exit by neither.
      by_cases he : e = .branch label
      · subst he
        rw [catching_of_branch hf] at hleft ⊢
        exact catching_of_ok hleft
      · rw [catching_of_error hf he] at hleft ⊢
        exact catching_of_error hleft he

theorem repeating_of_spend_error (hspend : spend s = .error e s₁) :
    repeating label run (clock + 1) s = .error e s₁ := by
  simp only [repeating, hspend]

theorem repeating_of_ok (hspend : spend s = .ok () s₁) (h : run s₁ = .ok v s₂) :
    repeating label run (clock + 1) s = .ok v s₂ := by
  simp only [repeating, hspend, h]

/-- A branch to the label of a loop starts the next round. -/
theorem repeating_of_branch (hspend : spend s = .ok () s₁)
    (h : run s₁ = .error (.branch label) s₂) :
    repeating label run (clock + 1) s = repeating label run clock s₂ := by
  simp only [repeating, hspend, h, if_pos]

/-- Every other exit leaves the loop. -/
theorem repeating_of_error (hspend : spend s = .ok () s₁) (h : run s₁ = .error e s₂)
    (he : e ≠ .branch label) : repeating label run (clock + 1) s = .error e s₂ := by
  cases e with
  | branch target =>
    have ht : target ≠ label := by simpa using he
    simp only [repeating, hspend, h, if_neg ht]
  | finish v => simp only [repeating, hspend, h]
  | trap t => simp only [repeating, hspend, h]
  | stalled => simp only [repeating, hspend, h]

end Run

/-! ## What a run keeps -/

/-- Started where `I` holds, the run ends where `I` holds, with a result in `Q` or an exit in
    `E`. -/
def Keeps (I : State σ → Prop) (run : Run σ α) (Q : α → Prop) (E : Exit → Prop) : Prop :=
  ∀ s, I s → match run s with
    | .ok a s' => I s' ∧ Q a
    | .error e s' => I s' ∧ E e

variable {I : State σ → Prop} {Q R : α → Prop} {E F : Exit → Prop}

/-- What a run that reached its end left. -/
theorem Keeps.of_ok {run : Run σ α} {s s' : State σ} {a : α} (h : Keeps I run Q E) (hs : I s)
    (hr : run s = .ok a s') : I s' ∧ Q a := by
  have := h s hs
  rwa [hr] at this

/-- What a run that ended early left. -/
theorem Keeps.of_error {run : Run σ α} {s s' : State σ} {e : Exit} (h : Keeps I run Q E)
    (hs : I s) (hr : run s = .error e s') : I s' ∧ E e := by
  have := h s hs
  rwa [hr] at this

/-- Less may be promised of the results than is known of them. -/
theorem Keeps.mono {run : Run σ α} (h : Keeps I run Q E) (hQ : ∀ a, Q a → R a)
    (hE : ∀ e, E e → F e) : Keeps I run R F := by
  intro s hs
  have hr := h s hs
  cases hrun : run s with
  | ok a s' => rw [hrun] at hr; exact ⟨hr.1, hQ a hr.2⟩
  | error e s' => rw [hrun] at hr; exact ⟨hr.1, hE e hr.2⟩

/-- What two properties of a run keep, it keeps together. -/
theorem Keeps.and {J : State σ → Prop} {run : Run σ α} (h : Keeps I run Q E)
    (h' : Keeps J run R F) :
    Keeps (fun s => I s ∧ J s) run (fun a => Q a ∧ R a) (fun e => E e ∧ F e) := by
  intro s hs
  cases hrun : run s with
  | ok a s' =>
    obtain ⟨hI, hQ⟩ := h.of_ok hs.1 hrun
    obtain ⟨hJ, hR⟩ := h'.of_ok hs.2 hrun
    exact ⟨⟨hI, hJ⟩, hQ, hR⟩
  | error e s' =>
    obtain ⟨hI, hE⟩ := h.of_error hs.1 hrun
    obtain ⟨hJ, hF⟩ := h'.of_error hs.2 hrun
    exact ⟨⟨hI, hJ⟩, hE, hF⟩

/-! ## Steps -/

/-- Returning a value keeps any invariant. -/
theorem keeps_pure {a : α} (hQ : Q a) : Keeps I (pure a : Run σ α) Q E :=
  fun _ hs => ⟨hs, hQ⟩

theorem keeps_throw {e : Exit} (hE : E e) : Keeps I (throw e : Run σ α) Q E :=
  fun _ hs => ⟨hs, hE⟩

theorem keeps_trap {t : Trap} (hE : E (.trap t)) : Keeps I (Run.trap t : Run σ α) Q E :=
  keeps_throw hE

/-- Consecutive steps: the second one starts where the first one ended. -/
theorem Keeps.bind {Q : α → Prop} {R : β → Prop} {x : Run σ α} {f : α → Run σ β}
    (hx : Keeps I x Q E) (hf : ∀ a, Q a → Keeps I (f a) R E) : Keeps I (x >>= f) R E := by
  intro s hs
  rw [Run.bind_apply]
  cases hrun : x s with
  | ok a s' =>
    obtain ⟨hs', ha⟩ := hx.of_ok hs hrun
    exact hf a ha s' hs'
  | error e s' => exact hx.of_error hs hrun

/-- Runs that go on alike from what their first step leaves. -/
theorem Keeps.bind_congr {Q : α → Prop} {x : Run σ α} {f g : α → Run σ β} (hx : Keeps I x Q E)
    (h : ∀ a s, Q a → I s → f a s = g a s) {s : State σ} (hs : I s) :
    (x >>= f) s = (x >>= g) s := by
  rw [Run.bind_apply, Run.bind_apply]
  cases hrun : x s with
  | ok a s' =>
    obtain ⟨hs', ha⟩ := hx.of_ok hs hrun
    exact h a s' ha hs'
  | error e s' => rfl

/-- A choice between two steps keeps what both of them keep. -/
theorem Keeps.ite {b : Bool} {x y : Run σ α} (hx : Keeps I x Q E) (hy : Keeps I y Q E) :
    Keeps I (if b then x else y) Q E := by
  cases b with
  | true => exact hx
  | false => exact hy

/-- A computation without state keeps any invariant. -/
theorem keeps_ofExcept {r : Except Trap α} (hok : ∀ a, r = .ok a → Q a)
    (herror : ∀ t, r = .error t → E (.trap t)) : Keeps I (Run.ofExcept r : Run σ α) Q E := by
  cases r with
  | ok a => exact keeps_pure (hok a rfl)
  | error t => exact keeps_trap (herror t rfl)

/-- A value is what the run yields; a run without one traps. -/
theorem Keeps.value {run : Run σ (Option Value)} {Q : Option Value → Prop}
    (h : Keeps I run Q E) (hE : E (.trap .missingValue)) :
    Keeps I (Run.value run) (fun v => Q (some v)) E := by
  refine h.bind fun v hv => ?_
  cases v with
  | none => exact keeps_trap hE
  | some v => exact keeps_pure hv

/-- A truth value is read from a 32-bit integer. -/
theorem Keeps.condition {run : Run σ (Option Value)} {Q : Option Value → Prop}
    (h : Keeps I run Q E) (hE : E (.trap .missingValue))
    (hmismatch : ∀ v, Q (some v) → v.slot ≠ .i32 → E (.trap (.typeMismatch .i32 v.slot))) :
    Keeps I (Run.condition run) (fun _ => True) E := by
  refine (h.value hE).bind fun v hv => ?_
  refine (keeps_ofExcept (Q := fun _ => True) (fun _ _ => trivial) ?_).bind
    fun a _ => keeps_pure trivial
  intro t ht
  -- A truth value is a 32-bit integer.
  cases v with
  | i32 a => simp [Value.toI32] at ht
  | i64 a | f32 a | f64 a =>
    simp only [Value.toI32, Except.error.injEq] at ht
    subst ht
    exact hmismatch _ hv (by simp [Value.slot])

/-- Spending fuel changes nothing but the fuel. -/
theorem keeps_spend (hI : ∀ s n, I s → s.fuel = some (n + 1) → I { s with fuel := some n })
    (hE : E (.trap .outOfFuel)) : Keeps I (Run.spend : Run σ Unit) (fun _ => True) E := by
  intro s hs
  cases hfuel : s.fuel with
  | none => simp only [Run.spend, hfuel]; exact ⟨hs, trivial⟩
  | some n =>
    cases n with
    | zero => simp only [Run.spend, hfuel]; exact ⟨hs, hE⟩
    | succ n => simp only [Run.spend, hfuel]; exact ⟨hI s n hs hfuel, trivial⟩

/-- Reading a local changes nothing. -/
theorem keeps_getLocal {index : Nat} {Q : Value → Prop}
    (hQ : ∀ s v, I s → s.locals[index]? = some v → Q v)
    (hunknown : ∀ s, I s → s.locals[index]? = none → E (.trap (.unknownLocal index))) :
    Keeps I (Run.getLocal index : Run σ Value) Q E := by
  intro s hs
  cases hlocal : s.locals[index]? with
  | none => simp only [Run.getLocal, hlocal]; exact ⟨hs, hunknown s hs hlocal⟩
  | some v => simp only [Run.getLocal, hlocal]; exact ⟨hs, hQ s v hs hlocal⟩

/-- Writing a local replaces a value by one of the same slot. -/
theorem keeps_setLocal {index : Nat} {v : Value}
    (hI : ∀ s old, I s → s.locals[index]? = some old → old.slot = v.slot →
      I { s with locals := s.locals.set index v })
    (hmismatch : ∀ s old, I s → s.locals[index]? = some old → old.slot ≠ v.slot →
      E (.trap (.typeMismatch old.slot v.slot)))
    (hunknown : ∀ s, I s → s.locals[index]? = none → E (.trap (.unknownLocal index))) :
    Keeps I (Run.setLocal index v : Run σ Unit) (fun _ => True) E := by
  intro s hs
  cases hlocal : s.locals[index]? with
  | none => simp only [Run.setLocal, hlocal]; exact ⟨hs, hunknown s hs hlocal⟩
  | some old =>
    by_cases hslot : old.slot = v.slot
    · simp only [Run.setLocal, hlocal, if_pos hslot]
      exact ⟨hI s old hs hlocal hslot, trivial⟩
    · simp only [Run.setLocal, hlocal, if_neg hslot]
      exact ⟨hs, hmismatch s old hs hlocal hslot⟩

/-! ## Blocks and loops -/

/-- A block ends without a value when a run branches to its label. -/
theorem Keeps.catching {label : Label} {run : Run σ (Option Value)} {Q : Option Value → Prop}
    (h : Keeps I run Q E) (hQ : Q none) (hE : ∀ e, E e → e ≠ .branch label → F e) :
    Keeps I (Run.catching label run) Q F := by
  intro s hs
  cases hrun : run s with
  | ok v s' =>
    rw [Run.catching_of_ok hrun]
    exact h.of_ok hs hrun
  | error e s' =>
    obtain ⟨hs', he⟩ := h.of_error hs hrun
    -- Only a branch to the label itself is caught.
    by_cases hlabel : e = .branch label
    · rw [hlabel] at hrun
      rw [Run.catching_of_branch hrun]
      exact ⟨hs', hQ⟩
    · rw [Run.catching_of_error hrun hlabel]
      exact ⟨hs', hE e he hlabel⟩

/-- A loop keeps what one round of it keeps, for any number of rounds. -/
theorem Keeps.repeating {label : Label} {body : Run σ (Option Value)} {Q : Option Value → Prop}
    (h : Keeps I body Q E) (hspend : Keeps I Run.spend (fun _ => True) F) (hstall : F .stalled)
    (hE : ∀ e, E e → e ≠ .branch label → F e) (clock : Nat) :
    Keeps I (Run.repeating label body clock) Q F := by
  induction clock with
  | zero => exact keeps_throw hstall
  | succ clock ih =>
    intro s hs
    cases hfuel : Run.spend s with
    | error e s₁ =>
      rw [Run.repeating_of_spend_error hfuel]
      exact hspend.of_error hs hfuel
    | ok u s₁ =>
      have hs₁ := (hspend.of_ok hs hfuel).1
      -- The round may end the loop, start another one, or leave it.
      cases hbody : body s₁ with
      | ok v s₂ =>
        rw [Run.repeating_of_ok hfuel hbody]
        exact h.of_ok hs₁ hbody
      | error e s₂ =>
        obtain ⟨hs₂, he⟩ := h.of_error hs₁ hbody
        by_cases hlabel : e = .branch label
        · rw [hlabel] at hbody
          rw [Run.repeating_of_branch hfuel hbody]
          -- The next round starts with the invariant, and with one less on the clock.
          exact ih s₂ hs₂
        · rw [Run.repeating_of_error hfuel hbody hlabel]
          exact ⟨hs₂, hE e he hlabel⟩

/-! ## Lists of nodes -/

section

variable {call : Nat → List Value → Run σ (Option Value)} {clock : Nat}

theorem evalAll_singleton (v : Option Value) (n : Node) :
    evalAll call clock v [n] = evalNode call clock n := by
  simp only [evalAll, bind_pure]

/-- A list is evaluated up to a point, and then from there with the value reached. -/
theorem evalAll_append (v : Option Value) (ns ms : List Node) :
    evalAll call clock v (ns ++ ms) =
      evalAll call clock v ns >>= fun w => evalAll call clock w ms := by
  induction ns generalizing v with
  | nil => simp only [evalAll, List.nil_append, pure_bind]
  | cons n ns ih => simp only [evalAll, List.cons_append, bind_assoc, ih]

/-- Arguments are evaluated one part after the other. -/
theorem evalArgs_append (ns ms : List Node) :
    evalArgs call clock (ns ++ ms) = (do
      let vs ← evalArgs call clock ns
      let ws ← evalArgs call clock ms
      pure (vs ++ ws)) := by
  induction ns with
  | nil => simp only [evalArgs, List.nil_append, pure_bind, bind_pure]
  | cons n ns ih =>
    simp only [evalArgs, List.cons_append, bind_assoc, ih, pure_bind]

/-- Nodes run one after the other keep what each of them keeps. -/
theorem keeps_evalAll {ns : List Node} {last : Option Value}
    (h : ∀ n ∈ ns, Keeps I (evalNode call clock n) (fun _ => True) E) :
    Keeps I (evalAll call clock last ns) (fun _ => True) E := by
  induction ns generalizing last with
  | nil => exact keeps_pure trivial
  | cons n ns ih =>
    obtain ⟨hn, hns⟩ := List.forall_mem_cons.1 h
    exact hn.bind fun _ _ => ih hns

/-- Arguments keep what each of them keeps, and there is one value for each of them. -/
theorem keeps_evalArgs {ns : List Node} (hmissing : E (.trap .missingValue))
    (h : ∀ n ∈ ns, Keeps I (evalNode call clock n) (fun _ => True) E) :
    Keeps I (evalArgs call clock ns) (fun vs => vs.length = ns.length) E := by
  induction ns with
  | nil => exact keeps_pure rfl
  | cons n ns ih =>
    obtain ⟨hn, hns⟩ := List.forall_mem_cons.1 h
    refine (hn.value hmissing).bind fun v _ => (ih hns).bind fun vs hvs => keeps_pure ?_
    simp [hvs]

end

/-! ## Calls -/

/-- The check of arguments against parameters only ever finds a wrong slot. -/
theorem findMismatch?_eq_some {params : List Slot} {args : List Value} {reason : Trap}
    (h : findMismatch? params args = some reason) :
    ∃ expected found, reason = .typeMismatch expected found := by
  induction params generalizing args with
  | nil => simp [findMismatch?] at h
  | cons p ps ih =>
    cases args with
    | nil => simp [findMismatch?] at h
    | cons v vs =>
      simp only [findMismatch?] at h
      split at h
      · exact ih h
      · exact ⟨p, v.slot, by simpa using h.symm⟩

/-- As many arguments as parameters pass the check if they lie in the slots of the parameters. -/
theorem findMismatch?_eq_none {params : List Slot} {args : List Value}
    (h : params.length = args.length) :
    findMismatch? params args = none ↔ args.map Value.slot = params := by
  induction params generalizing args with
  | nil =>
    cases args with
    | nil => simp [findMismatch?]
    | cons v vs => simp at h
  | cons p ps ih =>
    cases args with
    | nil => simp at h
    | cons v vs =>
      have hlen : ps.length = vs.length := by simpa using h
      -- The first parameter agrees with its argument, or is the mismatch.
      by_cases hp : p = v.slot
      · simp [findMismatch?, hp, ih hlen]
      · simp [findMismatch?, hp, Ne.symm hp]

/-- Hosts that fail only for reasons of their own. -/
def Environment.HostsFailAsHosts (env : Environment σ) : Prop :=
  ∀ id host, env.host? id = some host →
    ∀ args w reason w', host args w = .error reason w' → ∃ text, reason = .host text

/-- A host changes its own state only, so what it answers decides the rest. -/
theorem keeps_runHost {host : Host σ} {args : List Value} {Q : Option Value → Prop}
    (hI : ∀ s world, I s → I { s with world })
    (hok : ∀ w v w', host args w = .ok v w' → Q v)
    (herror : ∀ w reason w', host args w = .error reason w' → E (.trap reason)) :
    Keeps I (runHost host args) Q E := by
  intro s hs
  simp only [runHost]
  cases hrun : host args s.world with
  | ok v w => exact ⟨hI s w hs, hok _ _ _ hrun⟩
  | error reason w => exact ⟨hI s w hs, herror _ _ _ hrun⟩

/-- The locals of a function start in their slots. -/
theorem slots_of_zeros {locals : List Local} {zeros : List Value}
    (h : locals.mapM (fun l => Value.zero? l.slot) = some zeros) :
    zeros.map Value.slot = locals.map Local.slot := by
  induction locals generalizing zeros with
  | nil =>
    simp only [List.mapM_nil, pure, Option.some.injEq] at h
    subst h
    rfl
  | cons l ls ih =>
    simp only [List.mapM_cons, bind, pure, Option.bind_eq_some_iff, Option.some.injEq] at h
    obtain ⟨v, hv, vs, hvs, rfl⟩ := h
    simp [Value.slot_zero hv, ih hvs]

/-- A function body runs on a frame of its own, in which `J` takes the place of `I`; what it
    branches to or returns with is settled before its caller goes on. -/
theorem keeps_runBody {J : State σ → Prop} {Q Q' : Option Value → Prop} {E' : Exit → Prop}
    {run : Node → Run σ (Option Value)} {f : Function} {args : List Value}
    (hbody : Keeps J (run f.body) Q' E')
    (henter : ∀ s zeros, I s → f.locals.mapM (fun l => Value.zero? l.slot) = some zeros →
      J { s with locals := args ++ zeros, depth := s.depth + 1 })
    (hleave : ∀ s inner, I s → J inner →
      I { inner with locals := s.locals, depth := inner.depth - 1 })
    (hvoid : f.result = .none → Q none)
    (hresult : ∀ v, Q' (some v) ∨ E' (.finish (some v)) → f.result ≠ .none → Q (some v))
    (hbranch : ∀ label, E' (.branch label) → E (.trap (.unboundLabel label)))
    (habort : ∀ e, e.isAbort → E' e → E e)
    (hdeep : E (.trap .callStackExhausted)) (hmissing : E (.trap .missingValue)) :
    Keeps I (runBody run f args) Q E := by
  intro s hs
  by_cases hdepth : s.depth = maxDepth
  · simp only [runBody, if_pos hdepth]
    exact ⟨hs, hdeep⟩
  cases hzeros : f.locals.mapM fun l => Value.zero? l.slot with
  | none =>
    simp only [runBody, if_neg hdepth, hzeros]
    exact ⟨hs, hmissing⟩
  | some zeros =>
    have hinner := hbody _ (henter s zeros hs hzeros)
    simp only [runBody, if_neg hdepth, hzeros]
    cases hrun : run f.body { s with locals := args ++ zeros, depth := s.depth + 1 } with
    | ok v inner =>
      rw [hrun] at hinner
      have hI := hleave s inner hs hinner.1
      by_cases hnone : f.result = .none
      · simp only [if_pos hnone]
        exact ⟨hI, hvoid hnone⟩
      · simp only [if_neg hnone]
        cases v with
        | none => exact ⟨hI, hmissing⟩
        | some v => exact ⟨hI, hresult v (.inl hinner.2) hnone⟩
    | error e inner =>
      rw [hrun] at hinner
      have hI := hleave s inner hs hinner.1
      cases e with
      | branch label =>
        -- No block is left that could catch the branch.
        exact ⟨hI, hbranch label hinner.2⟩
      | trap t => exact ⟨hI, habort _ rfl hinner.2⟩
      | stalled => exact ⟨hI, habort _ rfl hinner.2⟩
      | finish v =>
        -- A return is settled like the end of the body.
        by_cases hnone : f.result = .none
        · simp only [if_pos hnone]
          exact ⟨hI, hvoid hnone⟩
        · simp only [if_neg hnone]
          cases v with
          | none => exact ⟨hI, hmissing⟩
          | some v => exact ⟨hI, hresult v (.inr hinner.2) hnone⟩

/-- A call on arguments in the slots of the parameters spends fuel, and then plays the host that is
    bound to the import or runs the body of the function. -/
theorem enter_callee {env : Environment σ} (run : Node → Run σ (Option Value)) {id : Nat}
    {c : Callee} {args : List Value} {t t' : State σ} (hcallee : env.module.callee? id = some c)
    (hargs : args.map Value.slot = c.params) (hspend : Run.spend t = .ok () t') :
    env.enter run id args t = (match c with
      | .imported i => (env.host? id).elim (Run.trap (.missingHost i.name)) (runHost · args)
      | .defined f => runBody run f args) t' := by
  have hlen : c.params.length = args.length := by
    simp [← hargs]
  have hfind : findMismatch? c.params args = none := (findMismatch?_eq_none hlen).2 hargs
  unfold Environment.enter
  rw [Run.bind_apply, hspend]
  simp only [hcallee, hlen, ne_eq, not_true_eq_false, if_false, hfind]
  cases c with
  | imported i => cases env.host? id <;> rfl
  | defined f => rfl

/-- A call spends fuel, checks its callee and its arguments, and then runs the host or the body. -/
theorem keeps_enter {env : Environment σ} {run : Node → Run σ (Option Value)} {id : Nat}
    {args : List Value} {Q : Option Value → Prop}
    (hspend : Keeps I Run.spend (fun _ => True) E)
    (hunknown : env.module.callee? id = none → E (.trap (.unknownFunction (toString id))))
    (harity : ∀ c, env.module.callee? id = some c → c.params.length ≠ args.length →
      E (.trap (.arityMismatch c.name c.params.length args.length)))
    (hslots : ∀ c reason, env.module.callee? id = some c → c.params.length = args.length →
      args.map Value.slot ≠ c.params → findMismatch? c.params args = some reason →
      E (.trap reason))
    (hhost : ∀ i, env.module.callee? id = some (.imported i) → env.host? id = none →
      E (.trap (.missingHost i.name)))
    (himport : ∀ i host, env.module.callee? id = some (.imported i) → env.host? id = some host →
      args.map Value.slot = i.params → Keeps I (runHost host args) Q E)
    (hdefined : ∀ f, env.module.callee? id = some (.defined f) →
      args.map Value.slot = f.paramSlots → Keeps I (runBody run f args) Q E) :
    Keeps I (env.enter run id args) Q E := by
  refine hspend.bind fun _ _ => ?_
  cases hcallee : env.module.callee? id with
  | none => exact keeps_trap (hunknown hcallee)
  | some c =>
    dsimp only
    split
    next hlen => exact keeps_trap (harity c hcallee hlen)
    next hlen =>
      have hlen : c.params.length = args.length := by simpa using hlen
      -- The arguments are as many as the parameters, and may still lie in other slots.
      cases hfind : findMismatch? c.params args with
      | some reason =>
        -- There is a mismatch, so the arguments are not in the slots of the parameters.
        refine keeps_trap (hslots c reason hcallee hlen (fun heq => ?_) hfind)
        rw [(findMismatch?_eq_none hlen).2 heq] at hfind
        cases hfind
      | none =>
        have hargs := (findMismatch?_eq_none hlen).1 hfind
        cases c with
        | defined f => exact hdefined f hcallee hargs
        | imported i =>
          dsimp only
          cases hbound : env.host? id with
          | none => exact keeps_trap (hhost i hcallee hbound)
          | some host => exact himport i host hcallee hbound hargs

end Weir.Machine
