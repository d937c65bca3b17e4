import Weir.Proofs.Moments
import Weir.Proofs.SteadyRun

/-!
# Active calls

The moments of a run say which calls are active there: a part of a node is run under the same calls
as the node, and the body of a callee under one more. `Environment.Active` counts them, and the
machine keeps the same number in its state. What aborts at a moment aborts the whole run, so a run
traps for want of room exactly if it comes to one call too many.

## Key results

- `Active.depth`, `Comes.depth`: the state has the number of active calls
- `Comes.fails`: what a call ends with that nothing catches, the run ends with
- `call_exhausted_iff`: when there is no room for another call
-/

namespace Weir.Machine

open Weir.Code

variable {σ : Type} {env : Environment σ}

namespace Environment

/-- In the run that starts with the given call, `n` calls of functions of the module are active at
    the moment `m`. -/
inductive Active (env : Environment σ) (clock id : Nat) (args : List Value) (s : State σ) :
    Nat → Moment σ → Prop
  | body {k f inner} (hclock : clock = k + 1) (henter : env.Enters id args s f inner) :
      Active env clock id args s 1 ⟨id, k, f.body, inner⟩
  | part {n m m'} (h : Active env clock id args s n m) (hleads : env.Leads m m')
      (hclock : m'.clock = m.clock) : Active env clock id args s n m'
  | call {n function k callee nodes r t vs u f inner}
      (h : Active env clock id args s n ⟨function, k + 1, .call callee nodes r, t⟩)
      (hargs : evalArgs (env.call (k + 1)) (k + 1) nodes t = .ok vs u)
      (henter : env.Enters callee vs u f inner) :
      Active env clock id args s (n + 1) ⟨callee, k, f.body, inner⟩

/-- While `n` calls are active, the run that starts with the given call comes to the call of
    `callee` on `vs` in the state `t`. This may be the first call itself. -/
inductive Comes (env : Environment σ) (clock id : Nat) (args : List Value) (s : State σ) :
    Nat → Nat → List Value → State σ → Prop
  | first : Comes env clock id args s 0 id args s
  | inner {n m callee nodes r vs t} (h : env.Active clock id args s n m)
      (hnode : m.node = .call callee nodes r)
      (hargs : evalArgs (env.call m.clock) m.clock nodes m.state = .ok vs t) :
      Comes env clock id args s n callee vs t

end Environment

variable {clock id k n : Nat} {args : List Value} {s : State σ} {m m' : Moment σ} {e : Exit}

/-! ## Depth -/

/-- Fuel can be spent unless it is used up. -/
theorem spend_eq_ok_iff : (∃ t, Run.spend s = .ok () t) ↔ s.fuel ≠ some 0 := by
  unfold Run.spend
  cases s.fuel with
  | none => simp
  | some n => cases n <;> simp

/-- Spending fuel is done at the depth of the caller. -/
private theorem depth_of_spend {t : State σ} (h : Run.spend s = .ok () t) : t.depth = s.depth := by
  have hspend : Keeps (fun u : State σ => u.depth = s.depth) Run.spend (fun _ => True)
      fun _ => True := keeps_spend (fun _ _ hs _ => hs) trivial
  exact (hspend.of_ok rfl h).1

/-- The body of a callee is run with one more call active. -/
private theorem Environment.Enters.depth {f : Function} {inner : State σ}
    (h : env.Enters id args s f inner) : inner.depth = s.depth + 1 := by
  obtain ⟨spent, zeros, hspend, -, -, rfl⟩ := h.frame
  exact congrArg (· + 1) (depth_of_spend hspend)

/-- Evaluating arguments ends at the depth that it began with. -/
private theorem depth_of_evalArgs {nodes : List Node} {vs : List Value} {t : State σ}
    (h : evalArgs (env.call k) k nodes s = .ok vs t) : t.depth = s.depth :=
  ((keeps_evalArgs (I := fun u => u.depth = s.depth) (E := fun _ => True) trivial
    fun n _ => keeps_depth env k s.depth n).of_ok rfl h).1

/-- A part of a node is run with the same number of active calls. -/
private theorem Environment.Leads.depth (h : env.Leads m m') (hclock : m'.clock = m.clock) :
    m'.state.depth = m.state.depth := by
  have hcond {k : Nat} {c : Node} {b : Bool} {s t : State σ}
      (hc : Run.condition (evalNode (env.call k) k c) s = .ok b t) : t.depth = s.depth :=
    (((keeps_depth env k s.depth c).condition trivial fun _ _ _ => trivial).of_ok rfl hc).1
  cases h with
  | operand _ hbefore => exact depth_of_evalArgs hbefore
  | @child id k label before n after s v t hbefore =>
    exact ((keeps_evalAll (I := fun u => u.depth = s.depth) (E := fun _ => True)
      fun n _ => keeps_depth env k s.depth n).of_ok rfl hbefore).1
  | ifThen hc => exact hcond hc
  | ifTrue hc => exact hcond hc
  | ifFalse hc => exact hcond hc
  | @round id k label body s t hrounds =>
    exact hrounds.invariant (keeps_depth env k s.depth body)
      (keeps_spend (E := fun _ => True) (fun _ _ hs _ => hs) trivial) rfl
  | call _ _ => cases Nat.ne_of_lt (Nat.lt_succ_self _) hclock

theorem Environment.Active.depth (h : env.Active clock id args s n m) :
    m.state.depth = s.depth + n := by
  -- The induction is on the calls that are active. A part is evaluated at the depth of the whole,
  -- and each call is one deeper.
  induction h with
  | body _ henter => exact henter.depth
  | part _ hleads hclock ih => rw [hleads.depth hclock, ih]
  | call _ hargs henter ih =>
    rw [henter.depth, depth_of_evalArgs hargs, ih]
    rfl

/-- The machine counts the calls that are active. -/
theorem Environment.Comes.depth {callee : Nat} {vs : List Value} {t : State σ}
    (h : env.Comes clock id args s n callee vs t) : t.depth = s.depth + n := by
  cases h with
  | first => rfl
  | inner h _ hargs => rw [depth_of_evalArgs hargs, h.depth]

/-! ## What aborts a run -/

/-- From the given moment on, the run ends with an exit. -/
def Environment.Fails (env : Environment σ) (m : Moment σ) (e : Exit) : Prop :=
  ∃ t, evalNode (env.call m.clock) m.clock m.node m.state = .error e t

/-- A node goes on from the values of its operands, but for one that drops what its operand
    yields. -/
private theorem evalNode_eq_bind (call : Nat → List Value → Run σ (Option Value)) (clock : Nat)
    (n : Node) (hn : ∀ o, n ≠ .drop o) :
    ∃ f, evalNode call clock n = evalArgs call clock n.operands >>= f := by
  let missing : Run σ (Option Value) := Run.trap .missingValue
  -- One operand, and what is done with its value.
  have hone {o : Node} {run : Run σ (Option Value)} (g : Value → Run σ (Option Value))
      (h : run = Run.value (evalNode call clock o) >>= g) :
      ∃ f, run = evalArgs call clock [o] >>= f := by
    refine ⟨fun vs => vs[0]?.elim missing g, ?_⟩
    simp only [evalArgs, bind_assoc, pure_bind]
    exact h
  -- Each kind of node is matched with what it does after its operands.
  cases n with
  | drop o => exact absurd rfl (hn o)
  | ifThen r c t =>
    exact hone _ (by simp only [evalNode, Run.condition, bind_assoc]; rfl)
  | ifElse r c t o =>
    exact hone _ (by simp only [evalNode, Run.condition, bind_assoc]; rfl)
  | brIf label c =>
    exact hone _ (by simp only [evalNode, Run.condition, bind_assoc]; rfl)
  | brTable labels fallback index => exact hone _ (by simp only [evalNode]; rfl)
  | retValue o => exact hone _ (by simp only [evalNode]; rfl)
  | localSet index o => exact hone _ (by simp only [evalNode]; rfl)
  | localTee index r o => exact hone _ (by simp only [evalNode]; rfl)
  | unary op r o => exact hone _ (by simp only [evalNode]; rfl)
  | convert c o => exact hone _ (by simp only [evalNode]; rfl)
  | select c t o =>
    refine ⟨fun vs => vs[0]?.elim missing fun v => vs[1]?.elim missing fun w =>
      vs[2]?.elim missing fun u => do
        let a ← Run.ofExcept u.toI32
        pure (some (if a != 0 then v else w)), ?_⟩
    simp only [evalNode, Run.condition, Node.operands, evalArgs, bind_assoc, pure_bind]
    rfl
  | binary op slot l r =>
    refine ⟨fun vs => vs[0]?.elim missing fun v => vs[1]?.elim missing fun w => do
      let u ← Run.ofExcept (op.eval v w)
      pure (some u), ?_⟩
    simp only [evalNode, Node.operands, evalArgs, bind_assoc, pure_bind]
    rfl
  | call callee nodes r => exact ⟨call callee, by simp only [evalNode]; rfl⟩
  | _ =>
    exact ⟨fun _ => evalNode call clock _, by
      simp only [Node.operands, evalArgs, pure_bind]
      rfl⟩

/-- What an operand ends with, its node ends with. -/
private theorem fails_of_operand {before after : List Node} {o : Node} {vs : List Value}
    {t u : State σ} (hn : m.node.operands = before ++ o :: after)
    (hbefore : evalArgs (env.call m.clock) m.clock before m.state = .ok vs t)
    (h : evalNode (env.call m.clock) m.clock o t = .error e u) : env.Fails m e := by
  have hargs : evalArgs (env.call m.clock) m.clock m.node.operands m.state = .error e u := by
    rw [hn, evalArgs_append, Run.bind_apply, hbefore]
    simp only [evalArgs, Run.value, bind_assoc]
    rw [Run.bind_apply, h]
  by_cases hdrop : ∃ o', m.node = .drop o'
  · -- Its operand need not have a value.
    obtain ⟨o', ho'⟩ := hdrop
    rw [ho'] at hn
    obtain ⟨rfl, heq⟩ | ⟨rest, rfl, hnil⟩ := List.cons_eq_append_iff.1 hn
    · cases heq
      cases hbefore
      refine ⟨u, ?_⟩
      rw [ho']
      simp only [evalNode]
      rw [Run.bind_apply, h]
    · simp at hnil
  · obtain ⟨f, hf⟩ := evalNode_eq_bind (env.call m.clock) m.clock m.node fun o' ho' =>
      hdrop ⟨o', ho'⟩
    refine ⟨u, ?_⟩
    rw [hf, Run.bind_apply, hargs]

/-- A loop fails with the round that does, because an abort does not jump back. -/
private theorem Rounds.fails {label : Label} {body : Run σ (Option Value)} {t u : State σ}
    (h : Rounds label body clock s t) (he : e.isAbort) (hbody : body t = .error e u) :
    Run.repeating label body clock s = .error e u := by
  have hne : e ≠ .branch label := by
    rintro rfl
    cases he
  induction h with
  | first hspend => exact Run.repeating_of_error hspend hbody hne
  | next hspend hround _ ih =>
    rw [Run.repeating_of_branch hspend hround]
    exact ih hbody

/-- What a body ends with that nothing catches, the call ends with. -/
private theorem Environment.Enters.fails {f : Function} {inner u : State σ}
    {run : Node → Run σ (Option Value)} (h : env.Enters id args s f inner) (he : e.isAbort)
    (hbody : run f.body inner = .error e u) : ∃ t, env.enter run id args s = .error e t := by
  obtain ⟨spent, zeros, hspend, hdepth, hzeros, rfl⟩ := h.frame
  rw [enter_callee run h.callee h.slots hspend]
  dsimp only
  rw [runBody_apply, if_neg hdepth, hzeros]
  dsimp only
  rw [hbody]
  -- Only an abort leaves the body as it is, for a jump and a return are settled there.
  cases e with
  | trap reason => exact ⟨_, rfl⟩
  | stalled => exact ⟨_, rfl⟩
  | branch label => cases he
  | finish v => cases he

/-- What ends a run at a moment ends it at the moments that lead there. -/
private theorem Environment.Leads.fails (h : env.Leads m m') (he : e.isAbort)
    (hm' : env.Fails m' e) :
    env.Fails m e := by
  obtain ⟨u, hu⟩ := hm'
  have hne (label : Label) : e ≠ .branch label := by
    rintro rfl
    cases he
  -- In each case the whole has come as far as the part, and does nothing with its abort.
  cases h with
  | operand hn hbefore => exact fails_of_operand hn hbefore hu
  | @child id k label before n after s v t hbefore =>
    have hall : evalAll (env.call k) k none (before ++ n :: after) s = .error e u := by
      rw [evalAll_append, Run.bind_apply, hbefore]
      simp only [evalAll]
      rw [Run.bind_apply, hu]
    refine ⟨u, ?_⟩
    cases label with
    | none => simpa only [evalNode] using hall
    | some label =>
      simp only [evalNode]
      exact Run.catching_of_error hall (hne label)
  | ifThen hc =>
    refine ⟨u, ?_⟩
    simp only [evalNode]
    rw [Run.bind_apply, hc]
    exact hu
  | ifTrue hc =>
    refine ⟨u, ?_⟩
    simp only [evalNode]
    rw [Run.bind_apply, hc]
    exact hu
  | ifFalse hc =>
    refine ⟨u, ?_⟩
    simp only [evalNode]
    rw [Run.bind_apply, hc]
    exact hu
  | round hrounds =>
    refine ⟨u, ?_⟩
    simp only [evalNode]
    exact hrounds.fails he hu
  | call hargs henter =>
    obtain ⟨t, ht⟩ := henter.fails he hu
    refine ⟨t, ?_⟩
    simp only [evalNode]
    rw [Run.bind_apply, hargs]
    exact ht

/-- A call fails with whatever fails below it, through all the calls between. -/
private theorem Environment.Active.fails (h : env.Active clock id args s n m) (he : e.isAbort)
    (hm : env.Fails m e) : ∃ t, env.call clock id args s = .error e t := by
  induction h with
  | body hclock henter =>
    obtain ⟨u, hu⟩ := hm
    rw [hclock]
    exact henter.fails he hu
  | part _ hleads _ ih => exact ih (hleads.fails he hm)
  | call _ hargs henter ih => exact ih ((Environment.Leads.call hargs henter).fails he hm)

/-- What ends a call ends the run that comes to it, if nothing catches it. -/
theorem Environment.Comes.fails {callee : Nat} {vs : List Value} {t : State σ}
    (h : env.Comes clock id args s n callee vs t) (he : e.isAbort)
    (hcall : ∀ k, ∃ u, env.call k callee vs t = .error e u) :
    ∃ u, env.call clock id args s = .error e u := by
  cases h with
  | first => exact hcall clock
  | @inner n m callee nodes r vs t h hnode hargs =>
    obtain ⟨u, hu⟩ := hcall m.clock
    refine h.fails he ⟨u, ?_⟩
    rw [hnode]
    simp only [evalNode]
    rw [Run.bind_apply, hargs]
    exact hu

/-! ## Where a run lacks room -/

/-- The clock only runs down from a node to its parts. -/
private theorem Environment.Leads.clock_le (h : env.Leads m m') : m'.clock ≤ m.clock := by
  cases h with
  | call _ _ => exact Nat.le_succ _
  | _ => exact Nat.le_refl _

/-- What a node reaches has no more on the clock than the node. -/
private theorem Environment.Reaches.clock_le (h : env.Reaches m m') : m'.clock ≤ m.clock := by
  induction h with
  | refl => exact Nat.le_refl _
  | tail _ hleads ih => exact Nat.le_trans hleads.clock_le ih

/-- Within a body, no other calls become active. -/
private theorem Environment.Active.of_reaches (h : env.Active clock id args s n m)
    (hreaches : env.Reaches m m') (hclock : m'.clock = m.clock) :
    env.Active clock id args s n m' := by
  induction hreaches with
  | refl => exact h
  | @tail b c hreaches hleads ih =>
    have hb : b.clock ≤ m.clock := Environment.Reaches.clock_le hreaches
    have hc : c.clock ≤ b.clock := hleads.clock_le
    exact .part (ih (by omega)) hleads (by omega)

/-- The calls of a callee are active on top of those that were active when it was called. -/
private theorem Environment.Active.under {function callee : Nat} {nodes : List Node} {r : Slot}
    {vs : List Value} {t u : State σ} {j : Nat}
    (h : env.Active clock id args s n ⟨function, k, .call callee nodes r, t⟩)
    (hargs : evalArgs (env.call k) k nodes t = .ok vs u) (hm : env.Active k callee vs u j m) :
    env.Active clock id args s (n + j) m := by
  induction hm with
  | body hclock henter =>
    subst hclock
    exact .call h hargs henter
  | part _ hleads hclock ih => exact .part ih hleads hclock
  | call _ hargs' henter ih => exact .call ih hargs' henter

/-- What a call that is active gets to, the first one gets to, with the calls between counted. -/
private theorem Environment.Comes.under {function callee callee' : Nat} {nodes : List Node}
    {r : Slot} {vs vs' : List Value} {t t' u : State σ} {j : Nat}
    (h : env.Active clock id args s n ⟨function, k, .call callee nodes r, t⟩)
    (hargs : evalArgs (env.call k) k nodes t = .ok vs u)
    (hcomes : env.Comes k callee vs u j callee' vs' t') :
    env.Comes clock id args s (n + j) callee' vs' t' := by
  cases hcomes with
  | first => exact .inner h rfl hargs
  | inner hm hnode hargs' => exact .inner (h.under hargs hm) hnode hargs'

namespace Environment

/-- A call of a function of the module, with fuel left and with arguments in the slots of the
    parameters. -/
def Attempts (env : Environment σ) (id : Nat) (args : List Value) (s : State σ) : Prop :=
  ∃ f, env.module.callee? id = some (.defined f) ∧ args.map Value.slot = f.paramSlots ∧
    s.fuel ≠ some 0

/-- A call of a host that fails as if there was no room for another call. -/
def HostExhausts (env : Environment σ) (id : Nat) (args : List Value) (s : State σ) : Prop :=
  ∃ i host w, env.module.callee? id = some (.imported i) ∧ args.map Value.slot = i.params ∧
    s.fuel ≠ some 0 ∧ env.host? id = some host ∧ host args s.world = .error .callStackExhausted w

end Environment

/-- Spending fuel leaves the outside world as it is. -/
private theorem world_of_spend {t : State σ} (h : Run.spend s = .ok () t) : t.world = s.world := by
  have hspend : Keeps (fun u : State σ => u.world = s.world) Run.spend (fun _ => True)
      fun _ => True := keeps_spend (fun _ _ hs _ => hs) trivial
  exact (hspend.of_ok rfl h).1

/-- A call without room traps, and so does one of a host that fails that way. -/
private theorem call_exhausted {callee : Nat} {vs : List Value} {t : State σ}
    (h : t.depth = maxDepth ∧ env.Attempts callee vs t ∨ env.HostExhausts callee vs t) (k : Nat) :
    ∃ u, env.call k callee vs t = .error (.trap .callStackExhausted) u := by
  have henter (run : Node → Run σ (Option Value)) :
      ∃ u, env.enter run callee vs t = .error (.trap .callStackExhausted) u := by
    rcases h with ⟨hdepth, f, hcallee, hslots, hfuel⟩ |
      ⟨i, host, w, hcallee, hslots, hfuel, hhost, hfail⟩
    · obtain ⟨u, hspend⟩ := spend_eq_ok_iff.2 hfuel
      have hfull : u.depth = maxDepth := (depth_of_spend hspend).trans hdepth
      refine ⟨u, ?_⟩
      rw [enter_callee run hcallee hslots hspend]
      dsimp only
      rw [runBody_apply, if_pos hfull]
    · obtain ⟨u, hspend⟩ := spend_eq_ok_iff.2 hfuel
      rw [← world_of_spend hspend] at hfail
      refine ⟨{ u with world := w }, ?_⟩
      rw [enter_callee run hcallee hslots hspend]
      simp only [hhost, Option.elim_some, runHost, hfail]
  cases k with
  | zero => exact henter _
  | succ k => exact henter _

/-- A run that traps for want of room comes to a call that there is no room for, or to one of a host
    that fails that way. The induction is on the clock, which bounds the depth of the calls. -/
private theorem call_eq_exhausted {s' : State σ}
    (h : env.call clock id args s = .error (.trap .callStackExhausted) s') :
    ∃ n callee vs t, env.Comes clock id args s n callee vs t ∧
      (t.depth = maxDepth ∧ env.Attempts callee vs t ∨ env.HostExhausts callee vs t) := by
  -- Either the first call is the one, or it gets into its body, and that traps.
  have henter {run : Node → Run σ (Option Value)} {id : Nat} {args : List Value} {s s' : State σ}
      (h : env.enter run id args s = .error (.trap .callStackExhausted) s') :
      (s.depth = maxDepth ∧ env.Attempts id args s ∨ env.HostExhausts id args s) ∨
        ∃ f inner s'', env.Enters id args s f inner ∧
          run f.body inner = .error (.trap .callStackExhausted) s'' := by
    obtain ⟨t, hspend, ⟨f, hcallee, hslots, hrun⟩ | ⟨i, host, w, hcallee, hslots, hhost, hfail⟩⟩ :=
      enter_eq_lack_or_host rfl h
    · rcases runBody_eq_lack rfl hrun with ⟨-, hdepth⟩ | ⟨hreason, -⟩ |
        ⟨zeros, inner, hdepth, hzeros, hrun⟩
      · exact .inl (.inl ⟨(depth_of_spend hspend).symm.trans hdepth, f, hcallee, hslots,
          spend_eq_ok_iff.1 ⟨t, hspend⟩⟩)
      · cases hreason
      · rcases hrun with hrun | ⟨hreason, -⟩
        · exact .inr ⟨f, _, inner, ⟨hcallee, hslots, t, zeros, hspend, hdepth, hzeros, rfl⟩, hrun⟩
        · cases hreason
    · rw [world_of_spend hspend] at hfail
      exact .inl (.inr ⟨i, host, w, hcallee, hslots, spend_eq_ok_iff.1 ⟨t, hspend⟩, hhost, hfail⟩)
  -- The induction is on the clock. A body that traps passes the trap on from a call in it, with
  -- less on the clock.
  induction clock generalizing id args s s' with
  | zero =>
    rcases henter h with hroom | ⟨f, inner, s'', -, hrun⟩
    · exact ⟨0, id, args, s, .first, hroom⟩
    · cases hrun
  | succ k ih =>
    rcases henter h with hroom | ⟨f, inner, s'', henters, hrun⟩
    · exact ⟨0, id, args, s, .first, hroom⟩
    have habsent : Absent .callStackExhausted f.body.unreachables :=
      ⟨rfl, by simp, fun heq => by cases heq⟩
    have hpassed : PassedOn env .callStackExhausted ⟨id, k, f.body, inner⟩ id k s'' :=
      passesOn_of_reachable f.body habsent .refl s'' hrun
    obtain ⟨callee, nodes, r, s₁, vs, t, hreach, hargs, hcall⟩ := hpassed
    obtain ⟨n, callee', vs', t', hcomes, hroom⟩ := ih hcall
    have hactive : env.Active (k + 1) id args s 1 ⟨id, k, .call callee nodes r, s₁⟩ :=
      (Environment.Active.body rfl henters).of_reaches hreach rfl
    exact ⟨1 + n, callee', vs', t', hcomes.under hactive hargs, hroom⟩

/-- A run that starts without active calls traps for want of room exactly if it comes to a call of a
    function of the module, with fuel left and suitable arguments, while as many calls as there may
    be are active; or if a host that it calls fails that way. -/
theorem call_exhausted_iff (hs : s.depth = 0) :
    (∃ s', env.call clock id args s = .error (.trap .callStackExhausted) s') ↔
      ∃ n callee vs t, env.Comes clock id args s n callee vs t ∧
        (n = maxDepth ∧ env.Attempts callee vs t ∨ env.HostExhausts callee vs t) := by
  constructor
  · rintro ⟨s', h⟩
    obtain ⟨n, callee, vs, t, hcomes, hroom⟩ := call_eq_exhausted h
    -- From depth zero the depth is the number of active calls.
    rw [hcomes.depth, hs, Nat.zero_add] at hroom
    exact ⟨n, callee, vs, t, hcomes, hroom⟩
  · rintro ⟨n, callee, vs, t, hcomes, hroom⟩
    have hdepth := hcomes.depth
    rw [hs, Nat.zero_add] at hdepth
    rw [← hdepth] at hroom
    exact hcomes.fails rfl (call_exhausted hroom)

end Weir.Machine
