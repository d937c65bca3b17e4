import Weir.Proofs.Endings
import Weir.Proofs.ScopedRun

/-!
# What fuel is spent on

A run spends one unit of fuel on each round of a loop and on each call that it starts, and nothing
else. `nodeStarts` lists the rounds and calls that a node starts, in order, along the way that its
run takes. Where fuel is limited the list is as long as the fuel that was spent, and so every run
ends: a clock that is longer than the fuel is never used up.

## Key results

- `Accounts`: the fuel left and the starts of a run add up to the fuel it had, and a clock longer
  than the fuel is enough
- `accounts_node`, `call_accounts`: nodes and calls account for their fuel
- `invoke_terminates`: an invocation with limited fuel ends, and its starts are the fuel it spent
-/

namespace Weir.Machine

open Weir.Code

variable {σ α β : Type}

/-! ## Starts -/

/-- Something that fuel is spent on: a round of the loop with the given label, or a call of the
    callee with the given number. -/
inductive Start where
  | round (label : Label)
  | call (id : Nat)
  deriving DecidableEq

/-- What a run starts, by the state it starts in. -/
abbrev Starts (σ : Type) : Type := State σ → List Start

/-- Starts nothing. -/
def noStarts : Starts σ := fun _ => []

/-- What is started by spending fuel: nothing if there is none left. -/
def spendStarts (start : Start) : Starts σ := fun s =>
  match Run.spend s with
  | .ok () _ => [start]
  | .error _ _ => []

/-- What consecutive steps start: the second one is only run if the first one reaches its end. -/
def thenStarts (x : Run σ α) (first : Starts σ) (rest : α → Starts σ) : Starts σ := fun s =>
  first s ++ match x s with
    | .ok a t => rest a t
    | .error _ _ => []

/-- What is started where a run is followed by the rest if it branches to the label. -/
def branchStarts (label : Label) (x : Run σ (Option Value)) (first rest : Starts σ) : Starts σ :=
  fun s =>
    first s ++ match x s with
      | .error (.branch target) t => if target = label then rest t else []
      | _ => []

/-- What a loop starts, round after round. -/
def loopStarts (label : Label) (body : Run σ (Option Value)) (starts : Starts σ) : Nat → Starts σ
  | 0 => noStarts
  | clock + 1 => thenStarts Run.spend (spendStarts (.round label)) fun _ =>
      branchStarts label body starts (loopStarts label body starts clock)

section

variable {x : Run σ α} {starts : Starts σ} {rest : α → Starts σ} {s t : State σ}

private theorem thenStarts_of_ok {a : α} (h : x s = .ok a t) :
    thenStarts x starts rest s = starts s ++ rest a t := by
  simp only [thenStarts, h]

private theorem thenStarts_of_error {e : Exit} (h : x s = .error e t) :
    thenStarts x starts rest s = starts s := by
  simp only [thenStarts, h, List.append_nil]

variable {label : Label} {run : Run σ (Option Value)} {next : Starts σ}

private theorem branchStarts_of_ok {v : Option Value} (h : run s = .ok v t) :
    branchStarts label run starts next s = starts s := by
  simp only [branchStarts, h, List.append_nil]

/-- A run that branches to the label starts the rest. -/
private theorem branchStarts_of_branch (h : run s = .error (.branch label) t) :
    branchStarts label run starts next s = starts s ++ next t := by
  simp only [branchStarts, h, if_pos]

/-- A run that ends otherwise does not start the rest. -/
private theorem branchStarts_of_error {e : Exit} (h : run s = .error e t) (he : e ≠ .branch label) :
    branchStarts label run starts next s = starts s := by
  cases e with
  | branch target =>
    have htarget : target ≠ label := by simpa using he
    simp only [branchStarts, h, if_neg htarget, List.append_nil]
  | finish v => simp only [branchStarts, h, List.append_nil]
  | trap reason => simp only [branchStarts, h, List.append_nil]
  | stalled => simp only [branchStarts, h, List.append_nil]

end

section

variable (call : Nat → List Value → Run σ (Option Value)) (callStarts : Nat → List Value → Starts σ)
  (clock : Nat)

mutual

/-- What a node starts, given what calls start. -/
def nodeStarts : Node → Starts σ
  | .nop | .unreachable | .const _ | .localGet .. | .br _ | .ret => noStarts
  | .block _ children => allStarts children
  | .loop label body => loopStarts label (evalNode call clock body) (nodeStarts body) clock
  | .ifThen _ c t =>
    thenStarts (Run.condition (evalNode call clock c)) (nodeStarts c) fun b =>
      if b then nodeStarts t else noStarts
  | .ifElse _ c t e =>
    thenStarts (Run.condition (evalNode call clock c)) (nodeStarts c) fun b =>
      if b then nodeStarts t else nodeStarts e
  | .select c t e =>
    thenStarts (Run.value (evalNode call clock t)) (nodeStarts t) fun _ =>
      thenStarts (Run.value (evalNode call clock e)) (nodeStarts e) fun _ => nodeStarts c
  | .brIf _ e | .brTable _ _ e | .retValue e | .drop e | .localSet _ e | .localTee _ _ e
  | .unary _ _ e | .convert _ e => nodeStarts e
  | .binary _ _ l r =>
    thenStarts (Run.value (evalNode call clock l)) (nodeStarts l) fun _ => nodeStarts r
  | .call id args _ =>
    thenStarts (evalArgs call clock args) (argsStarts args) fun vs => callStarts id vs
termination_by structural n => n

/-- What nodes start that are run one after the other. -/
def allStarts : List Node → Starts σ
  | [] => noStarts
  | n :: ns => thenStarts (evalNode call clock n) (nodeStarts n) fun _ => allStarts ns
termination_by structural ns => ns

/-- What the arguments of a call start. -/
def argsStarts : List Node → Starts σ
  | [] => noStarts
  | n :: ns =>
    thenStarts (Run.value (evalNode call clock n)) (nodeStarts n) fun _ => argsStarts ns
termination_by structural ns => ns

end

end

/-- What the body of a function starts, if the call gets into it. -/
def bodyStarts (starts : Node → Starts σ) (f : Function) (args : List Value) : Starts σ := fun s =>
  if s.depth = maxDepth then []
  else match f.locals.mapM fun l => Value.zero? l.slot with
    | none => []
    | some zeros => starts f.body { s with locals := args ++ zeros, depth := s.depth + 1 }

namespace Environment

variable (env : Environment σ)

/-- What a call starts: the call itself, once its fuel is spent, and what the body of its callee
    starts. A call that is refused after that, or that goes to a host, is started all the same. -/
def enterStarts (starts : Node → Starts σ) (id : Nat) (args : List Value) : Starts σ :=
  thenStarts Run.spend (spendStarts (.call id)) fun _ =>
    match env.module.callee? id with
    | some (.defined f) =>
      if args.map Value.slot = f.paramSlots then bodyStarts starts f args else noStarts
    | _ => noStarts

/-- What a call starts on a clock. -/
def callStarts : Nat → Nat → List Value → Starts σ
  | 0 => env.enterStarts fun _ => noStarts
  | clock + 1 => env.enterStarts (nodeStarts (env.call clock) (callStarts clock) clock)

/-- What an invocation starts on a clock: nothing if the name is unknown. -/
def invokeStarts (clock : Nat) (name : String) (args : List Value) : Starts σ :=
  match env.module.findFunction? name with
  | none => noStarts
  | some id => env.callStarts clock id args

end Environment

/-! ## Accounts -/

/-- A run with limited fuel accounts for it: what is left at its end and what it started add up to
    what it had. If it had less fuel than the given clock, it does not come to the end of the
    clock. -/
def Accounts (clock : Nat) (run : Run σ α) (starts : Starts σ) : Prop :=
  ∀ s n, s.fuel = some n →
    (∃ left, (final (run s)).fuel = some left ∧ left + (starts s).length = n) ∧
      (n < clock → IsOver (run s))

/-- A run that ends normally is over. -/
theorem isOver_ok (a : α) (s : State σ) : IsOver (.ok a s : EStateM.Result Exit (State σ) α) :=
  fun _ h => by cases h

/-- A run that ends otherwise is over, unless it is the clock that has stopped it. -/
theorem isOver_error {e : Exit} (he : e ≠ .stalled) (s : State σ) :
    IsOver (.error e s : EStateM.Result Exit (State σ) α) := by
  intro t h
  cases h
  exact he rfl

variable {clock : Nat} {x : Run σ α} {f : α → Run σ β} {starts : Starts σ} {rest : α → Starts σ}

/-- A shorter clock is accounted for, too. -/
theorem Accounts.mono {clock' : Nat} (h : Accounts clock x starts) (hle : clock' ≤ clock) :
    Accounts clock' x starts := by
  intro s n hs
  obtain ⟨hleft, hover⟩ := h s n hs
  exact ⟨hleft, fun hlt => hover (Nat.lt_of_lt_of_le hlt hle)⟩

/-- A step that leaves fuel alone starts nothing. -/
private theorem accounts_of_fuel_eq (hfuel : ∀ s, (final (x s)).fuel = s.fuel)
    (hover : ∀ s, IsOver (x s)) :
    Accounts clock x noStarts := by
  intro s n hs
  refine ⟨⟨n, ?_, rfl⟩, fun _ => hover s⟩
  rw [hfuel s, hs]

private theorem accounts_pure (a : α) : Accounts clock (pure a : Run σ α) noStarts :=
  accounts_of_fuel_eq (fun _ => rfl) fun s => isOver_ok a s

private theorem accounts_throw {e : Exit} (he : e ≠ .stalled) :
    Accounts clock (throw e : Run σ α) noStarts :=
  accounts_of_fuel_eq (fun _ => rfl) fun s => isOver_error he s

private theorem accounts_trap (t : Trap) : Accounts clock (Run.trap t : Run σ α) noStarts :=
  accounts_throw (by simp)

/-- A check starts nothing. -/
private theorem accounts_ofExcept (r : Except Trap α) :
    Accounts clock (Run.ofExcept r : Run σ α) noStarts := by
  cases r with
  | ok a => exact accounts_pure a
  | error t => exact accounts_trap t

/-- Reading a local starts nothing. -/
private theorem accounts_getLocal (index : Nat) :
    Accounts clock (Run.getLocal index : Run σ Value) noStarts := by
  refine accounts_of_fuel_eq (fun s => ?_) fun s => ?_
  · unfold Run.getLocal
    cases s.locals[index]? <;> rfl
  · unfold Run.getLocal
    cases s.locals[index]? with
    | none => exact isOver_error (by simp) s
    | some v => exact isOver_ok v s

/-- Writing a local starts nothing. -/
private theorem accounts_setLocal (index : Nat) (v : Value) :
    Accounts clock (Run.setLocal index v : Run σ Unit) noStarts := by
  refine accounts_of_fuel_eq (fun s => ?_) fun s => ?_
  · unfold Run.setLocal
    cases s.locals[index]? with
    | none => rfl
    | some old =>
      dsimp only
      split <;> rfl
  · unfold Run.setLocal
    cases s.locals[index]? with
    | none => exact isOver_error (by simp) s
    | some old =>
      dsimp only
      split
      · exact isOver_ok () _
      · exact isOver_error (by simp) s

/-- Consecutive steps account for their fuel one after the other. -/
theorem Accounts.bind (hx : Accounts clock x starts) (hf : ∀ a, Accounts clock (f a) (rest a)) :
    Accounts clock (x >>= f) (thenStarts x starts rest) := by
  intro s n hs
  obtain ⟨⟨left, hleft, hsum⟩, hover⟩ := hx s n hs
  rw [Run.bind_apply]
  -- What is left after the first step is what the second one begins with, so the starts add up.
  cases hrun : x s with
  | error e t =>
    rw [hrun] at hleft hover
    rw [thenStarts_of_error hrun]
    refine ⟨⟨left, hleft, hsum⟩, fun hlt u h => ?_⟩
    cases h
    exact hover hlt t rfl
  | ok a t =>
    rw [hrun] at hleft
    obtain ⟨⟨left', hleft', hsum'⟩, hover'⟩ := hf a t left hleft
    rw [thenStarts_of_ok hrun]
    refine ⟨⟨left', hleft', ?_⟩, fun hlt => hover' (by omega)⟩
    rw [List.length_append]
    omega

/-- A second step that starts nothing adds nothing to what the first one started. -/
private theorem Accounts.bind_free (hx : Accounts clock x starts)
    (hf : ∀ a, Accounts clock (f a) noStarts) : Accounts clock (x >>= f) starts := by
  have heq : thenStarts x starts (fun _ => noStarts) = starts := by
    funext s
    cases hrun : x s with
    | ok a t => rw [thenStarts_of_ok hrun, noStarts, List.append_nil]
    | error e t => rw [thenStarts_of_error hrun]
  rw [← heq]
  exact hx.bind hf

/-- Asking for a value starts nothing more. -/
private theorem Accounts.value {run : Run σ (Option Value)} (h : Accounts clock run starts) :
    Accounts clock (Run.value run) starts := by
  refine h.bind_free fun v => ?_
  cases v with
  | none => exact accounts_trap _
  | some v => exact accounts_pure v

/-- Asking for a truth value starts nothing more. -/
private theorem Accounts.condition {run : Run σ (Option Value)} (h : Accounts clock run starts) :
    Accounts clock (Run.condition run) starts :=
  h.value.bind_free fun _ => (accounts_ofExcept _).bind_free fun _ => accounts_pure _

/-- A choice between two steps accounts for the fuel of the one that is chosen. -/
private theorem Accounts.ite {b : Bool} {x y : Run σ α} {starts' : Starts σ}
    (hx : Accounts clock x starts) (hy : Accounts clock y starts') :
    Accounts clock (if b then x else y) (if b then starts else starts') := by
  cases b with
  | true => exact hx
  | false => exact hy

/-- Spending a unit of fuel makes room for the rest on a shorter clock. -/
private theorem Accounts.spend_bind {start : Start} {f : Unit → Run σ α}
    (h : Accounts clock (f ()) starts) :
    Accounts (clock + 1) (Run.spend >>= f)
      (thenStarts Run.spend (spendStarts start) fun _ => starts) := by
  intro s n hs
  rw [Run.bind_apply]
  -- The one unit that is spent is the one start that is noted.
  cases n with
  | zero =>
    have hspend : Run.spend s = .error (.trap .outOfFuel) s := by simp only [Run.spend, hs]
    rw [hspend, thenStarts_of_error hspend, spendStarts, hspend]
    exact ⟨⟨0, hs, rfl⟩, fun _ => isOver_error (by simp) s⟩
  | succ n =>
    have hspend : Run.spend s = .ok () { s with fuel := some n } := by simp only [Run.spend, hs]
    obtain ⟨⟨left, hleft, hsum⟩, hover⟩ := h { s with fuel := some n } n rfl
    rw [hspend, thenStarts_of_ok hspend, spendStarts, hspend]
    refine ⟨⟨left, hleft, ?_⟩, fun hlt => hover (by omega)⟩
    rw [List.length_append, List.length_singleton]
    omega

/-! ## Blocks and loops -/

section

variable {label : Label} {run next : Run σ (Option Value)} {starts next' : Starts σ}

/-- What is started before a branch and after it adds up. -/
private theorem Accounts.onBranch (h : Accounts clock run starts)
    (hnext : Accounts clock next next') :
    Accounts clock (Run.onBranch label run next) (branchStarts label run starts next') := by
  intro s n hs
  obtain ⟨⟨left, hleft, hsum⟩, hover⟩ := h s n hs
  cases hrun : run s with
  | ok v t =>
    rw [hrun] at hleft
    rw [Run.onBranch_of_ok hrun, branchStarts_of_ok hrun]
    exact ⟨⟨left, hleft, hsum⟩, fun _ => isOver_ok v t⟩
  | error e t =>
    rw [hrun] at hleft hover
    by_cases he : e = .branch label
    · subst he
      obtain ⟨⟨left', hleft', hsum'⟩, hover'⟩ := hnext t left hleft
      rw [Run.onBranch_of_branch hrun, branchStarts_of_branch hrun]
      refine ⟨⟨left', hleft', ?_⟩, fun hlt => hover' (by omega)⟩
      rw [List.length_append]
      omega
    · rw [Run.onBranch_of_error hrun he, branchStarts_of_error hrun he]
      exact ⟨⟨left, hleft, hsum⟩, hover⟩

/-- Nothing is started where a block is left. -/
private theorem Accounts.catching (h : Accounts clock run starts) :
    Accounts clock (Run.catching label run) starts := by
  have heq : branchStarts label run starts noStarts = starts := by
    funext s
    unfold branchStarts noStarts
    split
    · rw [ite_self, List.append_nil]
    · exact List.append_nil _
  rw [← heq, Run.catching_eq_onBranch]
  exact h.onBranch (accounts_pure none)

/-- Every round of a loop spends fuel, so a loop does not come to the end of a clock that is longer
    than the fuel. -/
private theorem Accounts.repeating (h : Accounts clock run starts) {clock' : Nat}
    (hle : clock' ≤ clock) :
    Accounts clock' (Run.repeating label run clock') (loopStarts label run starts clock') := by
  induction clock' with
  | zero => exact fun s n hs => ⟨⟨n, hs, rfl⟩, fun hlt => absurd hlt (Nat.not_lt_zero _)⟩
  | succ clock' ih =>
    rw [Run.repeating_succ]
    have hle : clock' ≤ clock := Nat.le_of_succ_le hle
    exact ((h.mono hle).onBranch (ih hle)).spend_bind

end

/-! ## Nodes -/

section

variable {call : Nat → List Value → Run σ (Option Value)} {callStarts : Nat → List Value → Starts σ}

/-- Calls account for their fuel. -/
def CallsAccount (clock : Nat) (call : Nat → List Value → Run σ (Option Value))
    (callStarts : Nat → List Value → Starts σ) : Prop :=
  ∀ id args, Accounts clock (call id args) (callStarts id args)

mutual

/-- A node accounts for its fuel if calls do. The induction is on the node. -/
theorem accounts_node (hcall : CallsAccount clock call callStarts) : (n : Node) →
    Accounts clock (evalNode call clock n) (nodeStarts call callStarts clock n)
  | .nop => by simp only [evalNode, nodeStarts]; exact accounts_pure _
  | .unreachable => by simp only [evalNode, nodeStarts]; exact accounts_trap _
  | .const v => by simp only [evalNode, nodeStarts]; exact accounts_pure _
  | .ret => by simp only [evalNode, nodeStarts]; exact accounts_throw (by simp)
  | .br label => by simp only [evalNode, nodeStarts]; exact accounts_throw (by simp)
  | .block none children => by
    simp only [evalNode, nodeStarts]
    exact accounts_all hcall none children
  | .block (some label) children => by
    simp only [evalNode, nodeStarts]
    exact (accounts_all hcall none children).catching
  -- The rounds of a loop are what its fuel is spent on.
  | .loop label body => by
    simp only [evalNode, nodeStarts]
    exact (accounts_node hcall body).repeating (Nat.le_refl clock)
  | .ifThen _ c t => by
    simp only [evalNode, nodeStarts]
    refine (accounts_node hcall c).condition.bind fun b => Accounts.ite ?_ ?_
    · exact accounts_node hcall t
    · exact accounts_pure none
  | .ifElse _ c t e => by
    simp only [evalNode, nodeStarts]
    refine (accounts_node hcall c).condition.bind fun b => Accounts.ite ?_ ?_
    · exact accounts_node hcall t
    · exact accounts_node hcall e
  | .select c t e => by
    simp only [evalNode, nodeStarts]
    refine (accounts_node hcall t).value.bind fun v => ?_
    refine (accounts_node hcall e).value.bind fun w => ?_
    exact (accounts_node hcall c).condition.bind_free fun b => accounts_pure _
  | .brIf label c => by
    simp only [evalNode, nodeStarts]
    refine (accounts_node hcall c).condition.bind_free fun b => ?_
    cases b with
    | true => exact accounts_throw (by simp)
    | false => exact accounts_pure none
  | .brTable labels fallback index => by
    simp only [evalNode, nodeStarts]
    refine (accounts_node hcall index).value.bind_free fun v => ?_
    exact (accounts_ofExcept _).bind_free fun i => accounts_throw (by simp)
  | .retValue e => by
    simp only [evalNode, nodeStarts]
    exact (accounts_node hcall e).value.bind_free fun v => accounts_throw (by simp)
  | .drop e => by
    simp only [evalNode, nodeStarts]
    exact (accounts_node hcall e).bind_free fun v => accounts_pure none
  | .localGet index _ => by
    simp only [evalNode, nodeStarts]
    exact (accounts_getLocal index).bind_free fun v => accounts_pure _
  | .localSet index e | .localTee index _ e => by
    simp only [evalNode, nodeStarts]
    refine (accounts_node hcall e).value.bind_free fun v => ?_
    exact (accounts_setLocal index v).bind_free fun _ => accounts_pure _
  | .unary op _ e => by
    simp only [evalNode, nodeStarts]
    refine (accounts_node hcall e).value.bind_free fun v => ?_
    exact (accounts_ofExcept _).bind_free fun r => accounts_pure _
  | .binary op _ l r => by
    simp only [evalNode, nodeStarts]
    refine (accounts_node hcall l).value.bind fun v => ?_
    refine (accounts_node hcall r).value.bind_free fun w => ?_
    exact (accounts_ofExcept _).bind_free fun r => accounts_pure _
  | .convert c e => by
    simp only [evalNode, nodeStarts]
    refine (accounts_node hcall e).value.bind_free fun v => ?_
    exact (accounts_ofExcept _).bind_free fun r => accounts_pure _
  | .call id args _ => by
    simp only [evalNode, nodeStarts]
    exact (accounts_args hcall args).bind fun vs => hcall id vs
termination_by structural n => n

/-- Nodes that run in a row account for what they start. -/
private theorem accounts_all (hcall : CallsAccount clock call callStarts) (last : Option Value) :
    (ns : List Node) →
    Accounts clock (evalAll call clock last ns) (allStarts call callStarts clock ns)
  | [] => by simp only [evalAll, allStarts]; exact accounts_pure last
  | n :: ns => by
    simp only [evalAll, allStarts]
    exact (accounts_node hcall n).bind fun v => accounts_all hcall v ns
termination_by structural ns => ns

private theorem accounts_args (hcall : CallsAccount clock call callStarts) : (ns : List Node) →
    Accounts clock (evalArgs call clock ns) (argsStarts call callStarts clock ns)
  | [] => by simp only [evalArgs, argsStarts]; exact accounts_pure _
  | n :: ns => by
    simp only [evalArgs, argsStarts]
    refine (accounts_node hcall n).value.bind fun v => ?_
    exact (accounts_args hcall ns).bind_free fun vs => accounts_pure _
termination_by structural ns => ns

end

end

/-! ## Calls -/

/-- A host does not touch the fuel. -/
private theorem accounts_runHost (host : Host σ) (args : List Value) :
    Accounts clock (runHost host args) noStarts := by
  refine accounts_of_fuel_eq (fun s => ?_) fun s => ?_
  · unfold runHost
    cases host args s.world <;> rfl
  · unfold runHost
    cases host args s.world with
    | ok v world => exact isOver_ok v _
    | error reason world => exact isOver_error (by simp) _

/-- A call that is settled is over if the body that it ran is. -/
private theorem isOver_settle {f : Function} {s : State σ}
    {r : EStateM.Result Exit (State σ) (Option Value)} (h : IsOver r) :
    IsOver (settle f s r) := by
  have hfinish : ∀ (v : Option Value) (t : State σ), IsOver (settle f s (.ok v t)) := by
    intro v t
    simp only [settle]
    by_cases hresult : f.result = .none
    · rw [if_pos hresult]
      exact isOver_ok none _
    · rw [if_neg hresult]
      cases v with
      | none => exact isOver_error (by simp) _
      | some v => exact isOver_ok (some v) _
  cases r with
  | ok v t => exact hfinish v t
  | error e t =>
    cases e with
    -- What a body returns with is settled like what it leaves.
    | finish v => exact hfinish v t
    | branch label => exact isOver_error (by simp) _
    | trap reason => exact isOver_error (by simp) _
    | stalled => exact absurd rfl (h t)

/-- A function accounts for what its body starts. Whether the body ends well is settled without
    fuel. -/
private theorem accounts_runBody {run : Node → Run σ (Option Value)} {starts : Node → Starts σ}
    {f : Function} (h : Accounts clock (run f.body) (starts f.body)) (args : List Value) :
    Accounts clock (runBody run f args) (bodyStarts starts f args) := by
  intro s n hs
  rw [runBody_apply]
  unfold bodyStarts
  by_cases hdepth : s.depth = maxDepth
  · rw [if_pos hdepth, if_pos hdepth]
    exact ⟨⟨n, hs, rfl⟩, fun _ => isOver_error (by simp) s⟩
  rw [if_neg hdepth, if_neg hdepth]
  cases f.locals.mapM fun l => Value.zero? l.slot with
  | none => exact ⟨⟨n, hs, rfl⟩, fun _ => isOver_error (by simp) s⟩
  | some zeros =>
    obtain ⟨⟨left, hleft, hsum⟩, hover⟩ :=
      h { s with locals := args ++ zeros, depth := s.depth + 1 } n hs
    refine ⟨⟨left, ?_, hsum⟩, fun hlt => isOver_settle (hover hlt)⟩
    rw [final_settle]
    exact hleft

/-- A call accounts for its fuel on a clock that is one longer than that of the body it runs. -/
private theorem accounts_enter {env : Environment σ} {run : Node → Run σ (Option Value)}
    {starts : Node → Starts σ} (h : ∀ n, Accounts clock (run n) (starts n)) (id : Nat)
    (args : List Value) :
    Accounts (clock + 1) (env.enter run id args) (env.enterStarts starts id args) := by
  refine Accounts.spend_bind ?_
  cases env.module.callee? id with
  | none => exact accounts_trap _
  | some callee =>
    dsimp only
    split
    next hlen =>
      -- A call that is refused over its arguments does not get into a body.
      cases callee with
      | imported i => exact accounts_trap _
      | defined f =>
        have hslots : args.map Value.slot ≠ f.paramSlots := by
          intro heq
          have hlength := congrArg List.length heq
          rw [List.length_map] at hlength
          exact hlen hlength.symm
        simp only [if_neg hslots]
        exact accounts_trap _
    next hlen =>
      have hlen : callee.params.length = args.length := by simpa using hlen
      cases hfind : findMismatch? callee.params args with
      | some reason =>
        cases callee with
        | imported i => exact accounts_trap _
        | defined f =>
          have hslots : args.map Value.slot ≠ f.paramSlots := by
            intro heq
            rw [(findMismatch?_eq_none hlen).2 heq] at hfind
            cases hfind
          simp only [if_neg hslots]
          exact accounts_trap _
      | none =>
        cases callee with
        | defined f =>
          have hslots : args.map Value.slot = f.paramSlots := (findMismatch?_eq_none hlen).1 hfind
          simp only [if_pos hslots]
          exact accounts_runBody (h f.body) args
        | imported i =>
          dsimp only
          cases env.host? id with
          | none => exact accounts_trap _
          | some host => exact accounts_runHost host args

/-- Every call accounts for its fuel. The induction is on the clock, which bounds the depth of the
    calls. -/
theorem call_accounts (env : Environment σ) (clock : Nat) :
    CallsAccount clock (env.call clock) (env.callStarts clock) := by
  induction clock with
  | zero =>
    have hbody : ∀ n : Node, Accounts 0 (throw .stalled : Run σ (Option Value)) noStarts :=
      fun _ s n hs => ⟨⟨n, hs, rfl⟩, fun hlt => absurd hlt (Nat.not_lt_zero n)⟩
    exact fun id args => (accounts_enter hbody id args).mono (Nat.zero_le 1)
  | succ clock ih => exact fun id args => accounts_enter (accounts_node ih) id args

/-- An invocation accounts for the call that it is. -/
theorem invoke_accounts (env : Environment σ) (clock : Nat) (name : String) (args : List Value) :
    Accounts clock (env.invoke clock name args) (env.invokeStarts clock name args) := by
  unfold Environment.invoke Environment.invokeStarts
  cases env.module.findFunction? name with
  | none => exact accounts_trap _
  | some id => exact call_accounts env clock id args

/-- With a limit on fuel every invocation ends, whatever the module. The rounds of loops and the
    calls that it started, refused calls and calls of hosts among them, are no more than the fuel it
    had, and what is left is the fuel that none of them spent. A clock that is longer than the fuel
    is long enough. -/
theorem invoke_terminates (env : Environment σ) (name : String) (args : List Value) (s : State σ)
    (fuel : Nat) :
    let start : State σ := { s with fuel := some fuel }
    ∃ r, env.Ends name args start r ∧ ∀ clock, fuel < clock →
      env.invoke clock name args start = r ∧
      (env.invokeStarts clock name args start).length ≤ fuel ∧
      (final r).fuel = some (fuel - (env.invokeStarts clock name args start).length) := by
  intro start
  -- The clock that is one longer than the fuel decides.
  have hover := (invoke_accounts env (fuel + 1) name args start fuel rfl).2 (Nat.lt_succ_self fuel)
  refine ⟨_, ⟨⟨fuel + 1, rfl⟩, hover⟩, fun clock hlt => ?_⟩
  have hsame : env.invoke clock name args start = env.invoke (fuel + 1) name args start :=
    invoke_of_le_clock hlt rfl hover
  obtain ⟨left, hleft, hsum⟩ := (invoke_accounts env clock name args start fuel rfl).1
  refine ⟨hsame, by omega, ?_⟩
  rw [← hsame, hleft, ← hsum, Nat.add_sub_cancel]

/-- A host that counts its calls. -/
def countingHost : Host Nat := fun _ calls => .ok none (calls + 1)

/-- A countdown with too little fuel stops before its second call of the host. -/
theorem countdown_terminates :
    let env : Environment Nat := ⟨countdown, fun _ => some countingHost⟩
    let start : State Nat := ⟨[], some 4, 0, 0⟩
    let round : Start := .round ⟨.next, 0⟩
    env.invokeStarts 5 "main" [.i32 3] start = [.call 1, round, .call 0, round] ∧
      ∃ r, env.Ends "main" [.i32 3] start r ∧ ∀ clock, 4 < clock →
        env.invoke clock "main" [.i32 3] start = r ∧
        (env.invokeStarts clock "main" [.i32 3] start).length ≤ 4 ∧
        (final r).fuel = some (4 - (env.invokeStarts clock "main" [.i32 3] start).length) :=
  ⟨rfl, invoke_terminates ⟨countdown, fun _ => some countingHost⟩ "main" [.i32 3]
    ⟨[], some 4, 0, 0⟩ 4⟩

end Weir.Machine
