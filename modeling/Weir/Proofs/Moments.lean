import Mathlib.Logic.Relation
import Weir.Proofs.Causes

/-!
# Moments of a run

`evalNode` says how the run of a node ends. A `Moment` is a point on the way there: a node in the
body of some function that is run next, and the state at that point. `Environment.Leads` goes from
the moment of a node to the moments of its parts, and from a call to the body of its callee, each
time after what is run before; the moments of a run are those that it leads to from its first one.

Where a run traps can then be said exactly: a trap that no operator raises is passed on from a call,
or comes from the node that stands for it.

## Key results

- `Environment.Leads`, `Environment.Passes`: the moments that a run passes through
- `passesOn_of_reachable`: a trap over something missing is passed on from a call, unless it is one
  of an `unreachable` node or over a value
- `enter_eq_unreachable`: so does a call, from the body that it runs
-/

namespace Weir.Code

/-! ## Parts of code -/

/-- The nodes that are run before a node itself does anything, in order. -/
def Node.operands : Node → List Node
  | .nop | .unreachable | .block .. | .loop .. | .br _ | .ret | .const _ | .localGet .. => []
  | .ifThen _ c _ | .ifElse _ c _ _ | .brIf _ c => [c]
  -- Both choices come before the condition.
  | .select c t e => [t, e, c]
  | .brTable _ _ e | .retValue e | .drop e | .localSet _ e | .localTee _ _ e | .unary _ _ e
  | .convert _ e => [e]
  | .binary _ _ l r => [l, r]
  | .call _ args _ => args

mutual

/-- The number of `unreachable` nodes in a tree. -/
def Node.unreachables : Node → Nat
  | .unreachable => 1
  | .nop | .const _ | .localGet .. | .br _ | .ret => 0
  | .block _ children => unreachablesAll children
  | .loop _ body => body.unreachables
  | .ifThen _ c t => c.unreachables + t.unreachables
  | .ifElse _ c t e | .select c t e => c.unreachables + t.unreachables + e.unreachables
  | .drop e | .localSet _ e | .localTee _ _ e | .unary _ _ e | .convert _ e | .brIf _ e
  | .brTable _ _ e | .retValue e => e.unreachables
  | .binary _ _ l r => l.unreachables + r.unreachables
  | .call _ args _ => unreachablesAll args
termination_by structural n => n

/-- The number of `unreachable` nodes in trees. -/
def unreachablesAll : List Node → Nat
  | [] => 0
  | n :: ns => n.unreachables + unreachablesAll ns
termination_by structural ns => ns

end

end Weir.Code

namespace Weir.Machine

open Weir.Code

variable {σ : Type}

/-! ## Moments -/

/-- A point of a run: the number of the function whose body is run, the clock that is left there,
    and the node that is run next in the given state. -/
structure Moment (σ : Type) where
  function : Nat
  clock : Nat
  node : Node
  state : State σ

namespace Environment

/-- A call with the given arguments gets into the body of a function, which is run in the state
    `inner`. -/
structure Enters (env : Environment σ) (id : Nat) (args : List Value) (s : State σ)
    (f : Function) (inner : State σ) : Prop where
  callee : env.module.callee? id = some (.defined f)
  slots : args.map Value.slot = f.paramSlots
  frame : ∃ spent zeros, Run.spend s = .ok () spent ∧ spent.depth ≠ maxDepth ∧
    f.locals.mapM (fun l => Value.zero? l.slot) = some zeros ∧
    inner = { spent with locals := args ++ zeros, depth := spent.depth + 1 }

/-- From one moment of a run to a next one, after everything that is run in between: to an operand
    once those before it have their values, to a node of a block after those before it, to the
    chosen branch of a conditional, to a round of a loop, and from a call to the body of its
    callee. -/
inductive Leads (env : Environment σ) : Moment σ → Moment σ → Prop
  | operand {id k n before o after s vs t} (hn : Node.operands n = before ++ o :: after)
      (hbefore : evalArgs (env.call k) k before s = .ok vs t) :
      Leads env ⟨id, k, n, s⟩ ⟨id, k, o, t⟩
  | child {id k label before n after s v t}
      (hbefore : evalAll (env.call k) k none before s = .ok v t) :
      Leads env ⟨id, k, .block label (before ++ n :: after), s⟩ ⟨id, k, n, t⟩
  | ifThen {id k r c n s t} (hc : Run.condition (evalNode (env.call k) k c) s = .ok true t) :
      Leads env ⟨id, k, .ifThen r c n, s⟩ ⟨id, k, n, t⟩
  | ifTrue {id k r c n e s t} (hc : Run.condition (evalNode (env.call k) k c) s = .ok true t) :
      Leads env ⟨id, k, .ifElse r c n e, s⟩ ⟨id, k, n, t⟩
  | ifFalse {id k r c n e s t} (hc : Run.condition (evalNode (env.call k) k c) s = .ok false t) :
      Leads env ⟨id, k, .ifElse r c n e, s⟩ ⟨id, k, e, t⟩
  | round {id k label body s t} (h : Rounds label (evalNode (env.call k) k body) k s t) :
      Leads env ⟨id, k, .loop label body, s⟩ ⟨id, k, body, t⟩
  | call {id k callee args r s vs t f inner}
      (hargs : evalArgs (env.call (k + 1)) (k + 1) args s = .ok vs t)
      (henter : env.Enters callee vs t f inner) :
      Leads env ⟨id, k + 1, .call callee args r, s⟩ ⟨callee, k, f.body, inner⟩

/-- A run that is at the first moment comes to the second one. -/
def Reaches (env : Environment σ) : Moment σ → Moment σ → Prop := Relation.ReflTransGen env.Leads

/-- A call passes through a moment: it gets into the body of its callee, and from there to the
    moment. -/
def Passes (env : Environment σ) (clock id : Nat) (args : List Value) (s : State σ)
    (m : Moment σ) : Prop :=
  ∃ k f inner, clock = k + 1 ∧ env.Enters id args s f inner ∧
    env.Reaches ⟨id, k, f.body, inner⟩ m

end Environment

/-! ## Where a trap comes from -/

section

variable {env : Environment σ} {root : Moment σ} {id k : Nat} {reason : Trap}

/-- The run that started at `root` ends in `s'` because a call that it came to traps there for the
    given reason. -/
def PassedOn (env : Environment σ) (reason : Trap) (root : Moment σ) (id k : Nat) (s' : State σ) :
    Prop :=
  ∃ callee args r s vs t, env.Reaches root ⟨id, k, .call callee args r, s⟩ ∧
    evalArgs (env.call k) k args s = .ok vs t ∧
    env.call k callee vs t = .error (.trap reason) s'

variable {n o : Node} {s t : State σ}

/-- Traps over something missing other than a value, where the nodes have none of the `unreachable`
    nodes that stand for such a trap. -/
structure Absent (reason : Trap) (unreachables : Nat) : Prop where
  lack : reason.isLack
  not_value : reason ≠ .missingValue
  none_of_unreachable : reason = .unreachable → unreachables = 0

/-- What is absent from both parts is absent from the first. -/
private theorem Absent.left {m n : Nat} (h : Absent reason (m + n)) : Absent reason m :=
  ⟨h.lack, h.not_value, fun hr => (Nat.add_eq_zero_iff.1 (h.none_of_unreachable hr)).1⟩

private theorem Absent.right {m n : Nat} (h : Absent reason (m + n)) : Absent reason n :=
  ⟨h.lack, h.not_value, fun hr => (Nat.add_eq_zero_iff.1 (h.none_of_unreachable hr)).2⟩

/-- A run that has to leave a value fails for no reason of its own. -/
private theorem explains_value {cause : State σ → Prop} {run : Run σ (Option Value)} {m : Nat}
    (hm : Absent reason m) (h : Explains reason cause run s) :
    Explains reason cause (Run.value run) s :=
  h.value fun hreason => absurd hreason hm.not_value

/-- A run that has to leave a truth value fails for no reason of its own. -/
private theorem explains_condition {cause : State σ → Prop} {run : Run σ (Option Value)} {m : Nat}
    (hm : Absent reason m) (h : Explains reason cause run s) :
    Explains reason cause (Run.condition run) s :=
  h.condition hm.lack fun hreason => absurd hreason hm.not_value

/-- A node is run after the values of the operands before it. -/
private theorem reaches_operand (before after : List Node) {vs : List Value}
    (h : env.Reaches root ⟨id, k, n, s⟩) (hn : n.operands = before ++ o :: after)
    (hbefore : evalArgs (env.call k) k before s = .ok vs t) : env.Reaches root ⟨id, k, o, t⟩ :=
  h.tail (.operand hn hbefore)

/-- The first operand of a node is run right away. -/
private theorem reaches_first (after : List Node) (h : env.Reaches root ⟨id, k, n, s⟩)
    (hn : n.operands = o :: after) : env.Reaches root ⟨id, k, o, s⟩ :=
  reaches_operand [] after h hn rfl

/-- What is evaluated before the next argument, with its value. -/
private theorem evalArgs_concat (before : List Node) {vs : List Value} {v : Value} {u : State σ}
    (hbefore : evalArgs (env.call k) k before s = .ok vs t)
    (hv : Run.value (evalNode (env.call k) k o) t = .ok v u) :
    evalArgs (env.call k) k (before ++ [o]) s = .ok (vs ++ [v]) u := by
  rw [evalArgs_append, Run.bind_apply, hbefore]
  simp only [evalArgs, bind_assoc, pure_bind]
  rw [Run.bind_apply, hv]
  rfl

mutual

/-- Code without `unreachable` nodes passes their trap on from a call. The induction is on the node;
    that a run comes to its parts is said by the moments that it leads to. -/
theorem passesOn_of_reachable : (n : Node) → Absent reason n.unreachables → ∀ {s : State σ},
    env.Reaches root ⟨id, k, n, s⟩ →
    Explains reason (PassedOn env reason root id k) (evalNode (env.call k) k n) s
  | .nop, _, s, _ => by simp only [evalNode]; exact .pure _
  | .unreachable, hn, s, _ => by
    simp only [evalNode]
    refine .throw fun heq => ?_
    cases heq
    -- There is no `unreachable` node in what this is about.
    cases hn.none_of_unreachable rfl
  | .const v, _, s, _ => by simp only [evalNode]; exact .pure _
  | .ret, _, s, _ => by simp only [evalNode]; exact .throw (by simp)
  | .br label, _, s, _ => by simp only [evalNode]; exact .throw (by simp)
  | .localGet index _, hn, s, _ => by
    simp only [evalNode]
    exact (Explains.getLocal hn.lack).bind fun _ _ _ => .pure _
  | .block none children, hn, s, hs => by
    simp only [evalNode]
    exact passesOn_of_reachableAll children hn [] [] (by simpa using hs) rfl
  | .block (some label) children, hn, s, hs => by
    simp only [evalNode]
    exact (passesOn_of_reachableAll children hn [] [] (by simpa using hs) rfl).catching
  | .loop label body, hn, s, hs => by
    simp only [evalNode]
    -- Every round is a moment of its own, reached by the rounds before it.
    exact .repeating hn.lack k fun t ht => passesOn_of_reachable body hn (hs.tail (.round ht))
  | .ifThen _ c t, hn, s, hs => by
    have hc : Absent reason c.unreachables := hn.left
    have ht : Absent reason t.unreachables := hn.right
    simp only [evalNode]
    have hcond := passesOn_of_reachable c hc (reaches_first [] hs rfl)
    refine (explains_condition hc hcond).bind fun b u hb => ?_
    cases b with
    | true => exact passesOn_of_reachable t ht (hs.tail (.ifThen hb))
    | false => exact .pure _
  | .ifElse _ c t e, hn, s, hs => by
    have hct : Absent reason (c.unreachables + t.unreachables) := hn.left
    have he : Absent reason e.unreachables := hn.right
    have hc := hct.left
    have ht := hct.right
    simp only [evalNode]
    have hcond := passesOn_of_reachable c hc (reaches_first [] hs rfl)
    refine (explains_condition hc hcond).bind fun b u hb => ?_
    cases b with
    | true => exact passesOn_of_reachable t ht (hs.tail (.ifTrue hb))
    | false => exact passesOn_of_reachable e he (hs.tail (.ifFalse hb))
  | .select c t e, hn, s, hs => by
    have hct : Absent reason (c.unreachables + t.unreachables) := hn.left
    have he : Absent reason e.unreachables := hn.right
    have hc := hct.left
    have ht := hct.right
    simp only [evalNode]
    have hifTrue := passesOn_of_reachable t ht (reaches_first [e, c] hs rfl)
    refine (explains_value ht hifTrue).bind fun v u hv => ?_
    -- The operands before one are run before it, and their values lead to it.
    have hvs := evalArgs_concat [] rfl hv
    have hifFalse := passesOn_of_reachable e he (reaches_operand [t] [c] hs rfl hvs)
    refine (explains_value he hifFalse).bind fun w u' hw => ?_
    have hws := evalArgs_concat [t] hvs hw
    have hcond := passesOn_of_reachable c hc (reaches_operand [t, e] [] hs rfl hws)
    exact (explains_condition hc hcond).bind fun _ _ _ => .pure _
  | .brIf label c, hn, s, hs => by
    simp only [evalNode]
    have hcond := passesOn_of_reachable c hn (reaches_first [] hs rfl)
    refine (explains_condition (m := c.unreachables) hn hcond).bind fun b u _ => ?_
    cases b with
    | true => exact .throw (by simp)
    | false => exact .pure _
  | .brTable labels fallback index, hn, s, hs => by
    simp only [evalNode]
    have hindex := passesOn_of_reachable index hn (reaches_first [] hs rfl)
    refine (explains_value hn hindex).bind fun v u _ => ?_
    refine (Explains.ofExcept ?_).bind fun _ _ _ => .throw (by simp)
    exact ne_error_of_isLack hn.lack fun _ => toI32_eq_error
  | .retValue e, hn, s, hs => by
    simp only [evalNode]
    have hrun := passesOn_of_reachable e hn (reaches_first [] hs rfl)
    refine (explains_value hn hrun).bind fun v u _ => ?_
    exact .throw (by simp)
  | .drop e, hn, s, hs => by
    simp only [evalNode]
    exact (passesOn_of_reachable e hn (reaches_first [] hs rfl)).bind fun _ _ _ => .pure _
  | .localSet index e, hn, s, hs => by
    simp only [evalNode]
    have hrun := passesOn_of_reachable e hn (reaches_first [] hs rfl)
    refine (explains_value hn hrun).bind fun v u _ => ?_
    exact (Explains.setLocal hn.lack).bind fun _ _ _ => .pure _
  | .localTee index _ e, hn, s, hs => by
    simp only [evalNode]
    have hrun := passesOn_of_reachable e hn (reaches_first [] hs rfl)
    refine (explains_value hn hrun).bind fun v u _ => ?_
    exact (Explains.setLocal hn.lack).bind fun _ _ _ => .pure _
  | .unary op _ e, hn, s, hs => by
    simp only [evalNode]
    have hrun := passesOn_of_reachable e hn (reaches_first [] hs rfl)
    refine (explains_value hn hrun).bind fun v u _ => ?_
    exact .operator hn.lack fun _ => unary_eq_error
  | .binary op _ l r, hn, s, hs => by
    have hl : Absent reason l.unreachables := hn.left
    have hr : Absent reason r.unreachables := hn.right
    simp only [evalNode]
    have hleft := passesOn_of_reachable l hl (reaches_first [r] hs rfl)
    refine (explains_value hl hleft).bind fun v u hv => ?_
    have hvs := evalArgs_concat [] rfl hv
    have hright := passesOn_of_reachable r hr (reaches_operand [l] [] hs rfl hvs)
    refine (explains_value hr hright).bind fun w u' _ => ?_
    exact .operator hn.lack fun _ => binary_eq_error
  | .convert c e, hn, s, hs => by
    simp only [evalNode]
    have hrun := passesOn_of_reachable e hn (reaches_first [] hs rfl)
    refine (explains_value hn hrun).bind fun v u _ => ?_
    exact .operator hn.lack fun _ => convert_eq_error
  | .call callee args r, hn, s, hs => by
    simp only [evalNode]
    refine (passesOn_of_reachableArgs args hn [] hs rfl rfl).bind fun vs t hvs s' h => ?_
    -- Only here can the reason come up: it is passed on from the callee.
    exact ⟨callee, args, r, s, vs, t, hs, hvs, h⟩
termination_by structural n => n

/-- Nodes of a block that have no `unreachable` nodes in them pass the reason on one after the
    other. -/
theorem passesOn_of_reachableAll {label : Option Label} : (ns : List Node) →
    Absent reason (unreachablesAll ns) →
    ∀ (before after : List Node) {s t : State σ} {v : Option Value},
    env.Reaches root ⟨id, k, .block label (before ++ (ns ++ after)), s⟩ →
    evalAll (env.call k) k none before s = .ok v t →
    Explains reason (PassedOn env reason root id k) (evalAll (env.call k) k v ns) t
  | [], _, _, _, s, t, v, _, _ => by
    simp only [evalAll]
    exact .pure _
  | n :: ns, hn, before, after, s, t, v, hs, ht => by
    have hfirst : Absent reason n.unreachables := hn.left
    have hns : Absent reason (unreachablesAll ns) := hn.right
    simp only [evalAll]
    refine (passesOn_of_reachable n hfirst (hs.tail (.child ht))).bind fun w u hw => ?_
    -- The statement just run joins those before the next.
    have hbefore : evalAll (env.call k) k none (before ++ [n]) s = .ok w u := by
      rw [evalAll_append, Run.bind_apply, ht]
      simp only [evalAll_singleton]
      exact hw
    have hs' : env.Reaches root ⟨id, k, .block label ((before ++ [n]) ++ (ns ++ after)), s⟩ := by
      rwa [List.append_assoc]
    exact passesOn_of_reachableAll ns hns (before ++ [n]) after hs' hbefore
termination_by structural ns => ns

/-- The operands of a node pass the reason on one after the other. -/
private theorem passesOn_of_reachableArgs {n : Node} : (os : List Node) →
    Absent reason (unreachablesAll os) → ∀ (before : List Node) {s t : State σ} {vs : List Value},
    env.Reaches root ⟨id, k, n, s⟩ → n.operands = before ++ os →
    evalArgs (env.call k) k before s = .ok vs t →
    Explains reason (PassedOn env reason root id k) (evalArgs (env.call k) k os) t
  | [], _, _, s, t, vs, _, _, _ => by
    simp only [evalArgs]
    exact .pure _
  | o :: os, hn, before, s, t, vs, hs, hops, ht => by
    have ho : Absent reason o.unreachables := hn.left
    have hos : Absent reason (unreachablesAll os) := hn.right
    simp only [evalArgs]
    have hfirst := passesOn_of_reachable o ho (reaches_operand before os hs hops ht)
    refine (explains_value ho hfirst).bind fun v u hv => ?_
    -- The operand just run joins those before the next.
    have hops' : n.operands = (before ++ [o]) ++ os := by
      rw [hops, List.append_assoc]
      rfl
    have hbefore := evalArgs_concat before ht hv
    exact (passesOn_of_reachableArgs os hos (before ++ [o]) hs hops' hbefore).bind
      fun _ _ _ => .pure _
termination_by structural os => os

end

end

/-! ## Calls -/

/-- A call traps at an `unreachable` node only in the body that it gets into, if hosts do not trap
    that way of themselves. -/
theorem enter_eq_unreachable {env : Environment σ} (hhosts : env.HostsSpare .unreachable)
    {run : Node → Run σ (Option Value)} {id : Nat} {args : List Value} {s s' : State σ}
    (h : env.enter run id args s = .error (.trap .unreachable) s') :
    ∃ f inner s'', env.Enters id args s f inner ∧
      run f.body inner = .error (.trap .unreachable) s'' := by
  obtain ⟨f, t, hspend, hcallee, hslots, hrun⟩ := enter_eq_lack rfl hhosts h
  rcases runBody_eq_lack rfl hrun with ⟨hreason, -⟩ | ⟨hreason, -⟩ |
    ⟨zeros, inner, hdepth, hzeros, hrun⟩
  · cases hreason
  · cases hreason
  rcases hrun with hrun | ⟨hreason, -⟩
  · exact ⟨f, _, inner, ⟨hcallee, hslots, t, zeros, hspend, hdepth, hzeros, rfl⟩, hrun⟩
  · cases hreason

end Weir.Machine
