import Weir.Proofs.RunInvariant

/-!
# Two runs side by side

A `Coupling` compares two runs of the same code that differ in what surrounds them: their fuel,
their worlds or their clocks. As long as the runs are in step they have the same locals and the same
number of active calls. The first run may be cut short where the second one goes on, and then the
coupling says how the two ends compare.

## Key results

- `Coupled.bind`, `Coupled.catching`, `Coupled.repeating`: what runs are built from couples runs
- `coupled_node`: a node couples its two runs if calls and loops do
- `call_coupled`: calls are coupled if spending fuel and calling hosts is
-/

namespace Weir.Machine

open Weir.Code

variable {σ α β : Type}

/-- The state that a run leaves, whether or not it reaches its end. -/
def final : EStateM.Result Exit (State σ) α → State σ
  | .ok _ s | .error _ s => s

/-- What a run keeps is true of the state that it leaves. -/
theorem Keeps.final {I : State σ → Prop} {Q : α → Prop} {E : Exit → Prop} {run : Run σ α}
    (h : Keeps I run Q E) {s : State σ} (hs : I s) : I (final (run s)) := by
  have hkeeps := h s hs
  cases hrun : run s with
  | ok a s' => rw [hrun] at hkeeps; exact hkeeps.1
  | error e s' => rw [hrun] at hkeeps; exact hkeeps.1

/-! ## Couplings -/

/-- A way of comparing two runs by their fuel and their worlds. `inStep` says what is true as long
    as both runs do the same, and `cut` how the end of a first run that was cut short compares with
    a second one that went on. -/
structure Coupling (σ : Type) where
  inStep : Option Nat → σ → Option Nat → σ → Prop
  cut : Exit → Option Nat → σ → Option Nat → σ → Prop

namespace Coupling

variable (C : Coupling σ)

/-- Two states in which the runs are in step. -/
structure Agree (s t : State σ) : Prop where
  locals : s.locals = t.locals
  depth : s.depth = t.depth
  outer : C.inStep s.fuel s.world t.fuel t.world

/-- The first run was cut short in one state, and the second one has come to the other. What cuts a
    run short is an exit that nothing catches. -/
structure Cut (e : Exit) (s t : State σ) : Prop where
  abort : e.isAbort
  outer : C.cut e s.fuel s.world t.fuel t.world

/-- How the ends of two runs compare. -/
inductive Matches : EStateM.Result Exit (State σ) α → EStateM.Result Exit (State σ) α → Prop
  | ok {a : α} {s t : State σ} (h : C.Agree s t) : Matches (.ok a s) (.ok a t)
  | error {e : Exit} {s t : State σ} (h : C.Agree s t) : Matches (.error e s) (.error e t)
  | cut {e : Exit} {s : State σ} {r : EStateM.Result Exit (State σ) α} (h : C.Cut e s (final r)) :
      Matches (.error e s) r

end Coupling

/-- Two runs that end alike where they start in step, unless the first one is cut short. What was
    said of that end is still true after the second run. -/
structure Coupled (C : Coupling σ) (x y : Run σ α) : Prop where
  ends : ∀ s t, C.Agree s t → C.Matches (x s) (y t)
  stable : ∀ e s, Keeps (C.Cut e s) y (fun _ => True) (fun _ => True)

/-- Clocks of two runs: the one of the first run may be shorter if runs may be cut short at its
    end. -/
structure Coupling.Clocks (C : Coupling σ) (clock clock' : Nat) : Prop where
  le : clock ≤ clock'
  stall : clock < clock' → ∀ s t, C.Agree s t → C.Cut .stalled s t

variable {C : Coupling σ}

/-- Equal clocks stop at the same time. -/
theorem Coupling.Clocks.refl (clock : Nat) : C.Clocks clock clock :=
  ⟨Nat.le_refl _, fun hlt => absurd hlt (Nat.lt_irrefl _)⟩

/-- Clocks that may differ may still do so one tick later. -/
private theorem Coupling.Clocks.pred {clock clock' : Nat} (h : C.Clocks (clock + 1) (clock' + 1)) :
    C.Clocks clock clock' :=
  ⟨Nat.le_of_succ_le_succ h.le, fun hlt => h.stall (Nat.succ_lt_succ hlt)⟩

/-! ## Steps -/

private theorem coupled_pure (a : α) : Coupled C (pure a) (pure a) where
  ends _ _ h := .ok h
  stable _ _ := keeps_pure trivial

private theorem coupled_throw (e : Exit) : Coupled C (throw e : Run σ α) (throw e) where
  ends _ _ h := .error h
  stable _ _ := keeps_throw trivial

/-- Runs that trap for the same reason stay in step. -/
theorem coupled_trap (t : Trap) : Coupled C (Run.trap t : Run σ α) (Run.trap t) :=
  coupled_throw _

/-- Consecutive steps: a first run that is cut short in its first step does not get to the
    second. -/
theorem Coupled.bind {x y : Run σ α} {f g : α → Run σ β} (hx : Coupled C x y)
    (hf : ∀ a, Coupled C (f a) (g a)) : Coupled C (x >>= f) (y >>= g) where
  ends s t hst := by
    have h := hx.ends s t hst
    rw [Run.bind_apply, Run.bind_apply]
    generalize x s = r at h ⊢
    generalize y t = r' at h ⊢
    cases h with
    | ok h => exact (hf _).ends _ _ h
    | error h => exact .error h
    | cut h =>
      -- The second run may well get further than the first one, which has been cut short for good.
      cases r' with
      | ok a t' => exact .cut (((hf a).stable _ _).final h)
      | error e' t' => exact .cut h
  stable e s := (hx.stable e s).bind fun a _ => (hf a).stable e s

/-- A choice between two steps that is the same in both runs. -/
private theorem Coupled.ite {b : Bool} {x x' y y' : Run σ α} (hx : Coupled C x x')
    (hy : Coupled C y y') : Coupled C (if b then x else y) (if b then x' else y') := by
  cases b with
  | true => exact hx
  | false => exact hy

/-- A check that does not look at the state stays in step. -/
private theorem coupled_ofExcept (r : Except Trap α) :
    Coupled C (Run.ofExcept r) (Run.ofExcept r) := by
  cases r with
  | ok a => exact coupled_pure a
  | error t => exact coupled_trap t

/-- Both runs have a value or neither has. -/
private theorem Coupled.value {x y : Run σ (Option Value)} (h : Coupled C x y) :
    Coupled C (Run.value x) (Run.value y) := by
  refine h.bind fun v => ?_
  cases v with
  | none => exact coupled_trap _
  | some v => exact coupled_pure v

/-- Both runs have a truth value or neither has. -/
private theorem Coupled.condition {x y : Run σ (Option Value)} (h : Coupled C x y) :
    Coupled C (Run.condition x) (Run.condition y) :=
  h.value.bind fun _ => (coupled_ofExcept _).bind fun _ => coupled_pure _

/-- Runs that are in step read the same from a local. -/
private theorem coupled_getLocal (index : Nat) :
    Coupled C (Run.getLocal index : Run σ Value) (Run.getLocal index) where
  ends s t h := by
    unfold Run.getLocal
    rw [h.locals]
    cases t.locals[index]? with
    | none => exact .error h
    | some v => exact .ok h
  stable e s := keeps_getLocal (fun _ _ _ _ => trivial) fun _ _ _ => trivial

/-- Runs that are in step stay so if both of them write the same to a local. -/
private theorem coupled_setLocal (index : Nat) (v : Value) :
    Coupled C (Run.setLocal index v : Run σ Unit) (Run.setLocal index v) where
  ends s t h := by
    unfold Run.setLocal
    rw [h.locals]
    cases t.locals[index]? with
    | none => exact .error h
    | some old =>
      dsimp only
      by_cases hslot : old.slot = v.slot
      · rw [if_pos hslot, if_pos hslot]
        exact .ok ⟨rfl, h.depth, h.outer⟩
      · rw [if_neg hslot, if_neg hslot]
        exact .error h
  stable e s :=
    keeps_setLocal (fun _ _ h _ _ => ⟨h.abort, h.outer⟩) (fun _ _ _ _ _ => trivial)
      fun _ _ _ => trivial

/-! ## Blocks and loops -/

namespace Run

/-- Goes on with the rest where a run branches to the label. -/
def onBranch (label : Label) (run rest : Run σ (Option Value)) : Run σ (Option Value) := fun s =>
  match run s with
  | .error (.branch target) s => if target = label then rest s else .error (.branch target) s
  | r => r

theorem catching_eq_onBranch (label : Label) (run : Run σ (Option Value)) :
    catching label run = onBranch label run (pure none) :=
  rfl

/-- A loop goes on with its next round where it is restarted. -/
theorem repeating_succ (label : Label) (run : Run σ (Option Value)) (clock : Nat) :
    repeating label run (clock + 1) =
      spend >>= fun _ => onBranch label run (repeating label run clock) := by
  funext s
  rw [bind_apply]
  cases hspend : spend s with
  | ok u t =>
    simp only [repeating, hspend]
    rfl
  | error e t => simp only [repeating, hspend]

variable {label : Label} {run rest : Run σ (Option Value)} {s s' : State σ} {v : Option Value}
  {e : Exit}

theorem onBranch_of_ok (h : run s = .ok v s') : onBranch label run rest s = .ok v s' := by
  simp only [onBranch, h]

/-- A run that branches to the label goes on with the rest. -/
theorem onBranch_of_branch (h : run s = .error (.branch label) s') :
    onBranch label run rest s = rest s' := by
  simp only [onBranch, h, if_pos]

/-- A run that ends otherwise does not get to the rest. -/
theorem onBranch_of_error (h : run s = .error e s') (he : e ≠ .branch label) :
    onBranch label run rest s = .error e s' := by
  cases e with
  | branch target =>
    have htarget : target ≠ label := by simpa using he
    simp only [onBranch, h, if_neg htarget]
  | finish v => simp only [onBranch, h]
  | trap reason => simp only [onBranch, h]
  | stalled => simp only [onBranch, h]

end Run

/-- What the run and the rest keep is kept. -/
private theorem Keeps.onBranch {I : State σ → Prop} {label : Label}
    {run rest : Run σ (Option Value)} (h : Keeps I run (fun _ => True) (fun _ => True))
    (hrest : Keeps I rest (fun _ => True) (fun _ => True)) :
    Keeps I (Run.onBranch label run rest) (fun _ => True) (fun _ => True) := by
  intro s hs
  cases hrun : run s with
  | ok v s' =>
    rw [Run.onBranch_of_ok hrun]
    exact h.of_ok hs hrun
  | error e s' =>
    have hs' := h.of_error hs hrun
    by_cases he : e = .branch label
    · rw [he] at hrun
      rw [Run.onBranch_of_branch hrun]
      exact hrest s' hs'.1
    · rw [Run.onBranch_of_error hrun he]
      exact hs'

/-- Both runs branch to a label or neither does, unless the first one is cut short: nothing goes on
    after that. -/
private theorem Coupled.onBranch {x y rest rest' : Run σ (Option Value)} (label : Label)
    (h : Coupled C x y) (hrest : Coupled C rest rest') :
    Coupled C (Run.onBranch label x rest) (Run.onBranch label y rest') where
  ends s t hst := by
    have hends := h.ends s t hst
    generalize hx : x s = r at hends
    generalize hy : y t = r' at hends
    cases hends with
    | ok hagree =>
      rw [Run.onBranch_of_ok hx, Run.onBranch_of_ok hy]
      exact .ok hagree
    | @error e s' t' hagree =>
      by_cases he : e = .branch label
      · rw [he] at hx hy
        rw [Run.onBranch_of_branch hx, Run.onBranch_of_branch hy]
        exact hrest.ends s' t' hagree
      · rw [Run.onBranch_of_error hx he, Run.onBranch_of_error hy he]
        exact .error hagree
    -- The first run is cut short in its first part, and the second one may go on with the rest.
    | @cut e s' _ hcut =>
      have he : e ≠ .branch label := by
        rintro rfl
        cases hcut.abort
      rw [Run.onBranch_of_error hx he]
      cases r' with
      | ok v t' =>
        rw [Run.onBranch_of_ok hy]
        exact .cut hcut
      | error e' t' =>
        by_cases he' : e' = .branch label
        · rw [he'] at hy
          rw [Run.onBranch_of_branch hy]
          exact .cut ((hrest.stable e s').final hcut)
        · rw [Run.onBranch_of_error hy he']
          exact .cut hcut
  stable e s := (h.stable e s).onBranch (hrest.stable e s)

/-- Blocks stay in step if their contents do. -/
theorem Coupled.catching {x y : Run σ (Option Value)} (label : Label) (h : Coupled C x y) :
    Coupled C (Run.catching label x) (Run.catching label y) := by
  rw [Run.catching_eq_onBranch, Run.catching_eq_onBranch]
  exact h.onBranch label (coupled_pure none)

/-- Loops go through the same rounds in both runs. -/
theorem Coupled.repeating {x y : Run σ (Option Value)} (label : Label)
    (hspend : Coupled C (Run.spend : Run σ Unit) Run.spend) (h : Coupled C x y)
    {clock clock' : Nat} (hclocks : C.Clocks clock clock') :
    Coupled C (Run.repeating label x clock) (Run.repeating label y clock') := by
  induction clock generalizing clock' with
  | zero =>
    have hstable : ∀ e s,
        Keeps (C.Cut e s) (Run.repeating label y clock') (fun _ => True) (fun _ => True) :=
      fun e s => (h.stable e s).repeating (hspend.stable e s) trivial (fun _ _ _ => trivial) clock'
    refine ⟨fun s t hst => ?_, hstable⟩
    cases clock' with
    | zero => exact .error hst
    | succ clock' =>
      -- The first run is at the end of its clock, and the second one has rounds left.
      exact .cut ((hstable _ _).final (hclocks.stall (Nat.succ_pos _) s t hst))
  | succ clock ih =>
    cases clock' with
    | zero => exact absurd hclocks.le (Nat.not_succ_le_zero _)
    | succ clock' =>
      rw [Run.repeating_succ, Run.repeating_succ]
      exact hspend.bind fun _ => h.onBranch label (ih hclocks.pred)

/-! ## Nodes -/

section

variable {call call' : Nat → List Value → Run σ (Option Value)} {clock clock' : Nat}

/-- Calls with the same number and the same arguments are coupled. -/
def CallsCoupled (C : Coupling σ) (call call' : Nat → List Value → Run σ (Option Value)) : Prop :=
  ∀ id args, Coupled C (call id args) (call' id args)

/-- Loops are coupled if one round of them is. -/
def LoopsCoupled (C : Coupling σ) (clock clock' : Nat) : Prop :=
  ∀ (label : Label) (x y : Run σ (Option Value)), Coupled C x y →
    Coupled C (Run.repeating label x clock) (Run.repeating label y clock')

mutual

/-- The two runs of a node are coupled if calls and loops are. The induction is on the node. -/
theorem coupled_node (hcall : CallsCoupled C call call') (hloop : LoopsCoupled C clock clock') :
    (n : Node) → Coupled C (evalNode call clock n) (evalNode call' clock' n)
  | .nop => by simp only [evalNode]; exact coupled_pure _
  | .unreachable => by simp only [evalNode]; exact coupled_trap _
  | .const v => by simp only [evalNode]; exact coupled_pure _
  | .ret => by simp only [evalNode]; exact coupled_throw _
  | .br label => by simp only [evalNode]; exact coupled_throw _
  | .block none children => by
    simp only [evalNode]
    exact coupled_nodes hcall hloop none children
  | .block (some label) children => by
    simp only [evalNode]
    exact (coupled_nodes hcall hloop none children).catching label
  -- Loops are where the clocks count, so they are a hypothesis of their own.
  | .loop label body => by
    simp only [evalNode]
    exact hloop label _ _ (coupled_node hcall hloop body)
  | .ifThen _ c t => by
    simp only [evalNode]
    refine (coupled_node hcall hloop c).condition.bind fun b => Coupled.ite ?_ ?_
    · exact coupled_node hcall hloop t
    · exact coupled_pure _
  | .ifElse _ c t e => by
    simp only [evalNode]
    refine (coupled_node hcall hloop c).condition.bind fun b => Coupled.ite ?_ ?_
    · exact coupled_node hcall hloop t
    · exact coupled_node hcall hloop e
  | .select c t e => by
    simp only [evalNode]
    refine (coupled_node hcall hloop t).value.bind fun v => ?_
    refine (coupled_node hcall hloop e).value.bind fun w => ?_
    exact (coupled_node hcall hloop c).condition.bind fun b => coupled_pure _
  | .brIf label c => by
    simp only [evalNode]
    refine (coupled_node hcall hloop c).condition.bind fun b => Coupled.ite ?_ ?_
    · exact coupled_throw _
    · exact coupled_pure _
  | .brTable labels fallback index => by
    simp only [evalNode]
    refine (coupled_node hcall hloop index).value.bind fun v => ?_
    exact (coupled_ofExcept _).bind fun i => coupled_throw _
  | .retValue e => by
    simp only [evalNode]
    exact (coupled_node hcall hloop e).value.bind fun v => coupled_throw _
  | .drop e => by
    simp only [evalNode]
    exact (coupled_node hcall hloop e).bind fun v => coupled_pure _
  | .localGet index _ => by
    simp only [evalNode]
    exact (coupled_getLocal index).bind fun v => coupled_pure _
  | .localSet index e | .localTee index _ e => by
    simp only [evalNode]
    refine (coupled_node hcall hloop e).value.bind fun v => ?_
    exact (coupled_setLocal index v).bind fun _ => coupled_pure _
  | .unary op _ e => by
    simp only [evalNode]
    refine (coupled_node hcall hloop e).value.bind fun v => ?_
    exact (coupled_ofExcept _).bind fun r => coupled_pure _
  | .binary op _ l r => by
    simp only [evalNode]
    refine (coupled_node hcall hloop l).value.bind fun v => ?_
    refine (coupled_node hcall hloop r).value.bind fun w => ?_
    exact (coupled_ofExcept _).bind fun r => coupled_pure _
  | .convert c e => by
    simp only [evalNode]
    refine (coupled_node hcall hloop e).value.bind fun v => ?_
    exact (coupled_ofExcept _).bind fun r => coupled_pure _
  | .call id args _ => by
    simp only [evalNode]
    exact (coupled_args hcall hloop args).bind fun vs => hcall id vs
termination_by structural n => n

/-- Lists of nodes stay in step, whatever value they began with. -/
private theorem coupled_nodes (hcall : CallsCoupled C call call')
    (hloop : LoopsCoupled C clock clock')
    (last : Option Value) :
    (ns : List Node) → Coupled C (evalAll call clock last ns) (evalAll call' clock' last ns)
  | [] => by simp only [evalAll]; exact coupled_pure _
  | n :: ns => by
    simp only [evalAll]
    exact (coupled_node hcall hloop n).bind fun v => coupled_nodes hcall hloop v ns
termination_by structural ns => ns

private theorem coupled_args (hcall : CallsCoupled C call call')
    (hloop : LoopsCoupled C clock clock') :
    (ns : List Node) → Coupled C (evalArgs call clock ns) (evalArgs call' clock' ns)
  | [] => by simp only [evalArgs]; exact coupled_pure _
  | n :: ns => by
    simp only [evalArgs]
    refine (coupled_node hcall hloop n).value.bind fun v => ?_
    exact (coupled_args hcall hloop ns).bind fun vs => coupled_pure _
termination_by structural ns => ns

end

end

/-! ## Calls -/

/-- What a call makes of the end of the body that it ran, for a caller that is in the state `s`. -/
def settle (f : Function) (s : State σ) (r : EStateM.Result Exit (State σ) (Option Value)) :
    EStateM.Result Exit (State σ) (Option Value) :=
  let outside (inner : State σ) : State σ :=
    { inner with locals := s.locals, depth := inner.depth - 1 }
  let finish (v : Option Value) (inner : State σ) : EStateM.Result Exit (State σ) _ :=
    if f.result = .none then .ok none (outside inner)
    else match v with
      | some v => .ok (some v) (outside inner)
      | none => .error (.trap .missingValue) (outside inner)
  match r with
  | .ok v inner | .error (.finish v) inner => finish v inner
  | .error (.branch label) inner => .error (.trap (.unboundLabel label)) (outside inner)
  | .error e inner => .error e (outside inner)

/-- A body is run unless there are too many calls, or a local has no value to start with. -/
theorem runBody_apply (run : Node → Run σ (Option Value)) (f : Function) (args : List Value)
    (s : State σ) :
    runBody run f args s =
      if s.depth = maxDepth then .error (.trap .callStackExhausted) s
      else match f.locals.mapM fun l => Value.zero? l.slot with
        | none => .error (.trap .missingValue) s
        | some zeros =>
          settle f s (run f.body { s with locals := args ++ zeros, depth := s.depth + 1 }) :=
  rfl

/-- A call returns to the frame of its caller, and leaves fuel and world as the body left them. -/
theorem final_settle (f : Function) (s : State σ)
    (r : EStateM.Result Exit (State σ) (Option Value)) :
    final (settle f s r) = { final r with locals := s.locals, depth := (final r).depth - 1 } := by
  -- A body ends normally or by a return, and both are settled alike.
  have hfinish : ∀ (v : Option Value) (t : State σ),
      final (if f.result = .none then .ok none t else match v with
        | some v => .ok (some v) t
        | none => .error (.trap .missingValue) t : EStateM.Result Exit (State σ) (Option Value)) =
        t := by
    intro v t
    by_cases hresult : f.result = .none
    · rw [if_pos hresult]
      rfl
    · rw [if_neg hresult]
      cases v <;> rfl
  cases r with
  | ok v inner => exact hfinish v _
  | error e inner =>
    cases e with
    | finish v => exact hfinish v _
    | branch label => rfl
    | trap reason => rfl
    | stalled => rfl

/-- Ends of a body that compare are settled to ends that compare. -/
private theorem matches_settle (f : Function) {s t : State σ} (hst : C.Agree s t)
    {r r' : EStateM.Result Exit (State σ) (Option Value)} (h : C.Matches r r') :
    C.Matches (settle f s r) (settle f t r') := by
  have hfinish : ∀ (v : Option Value) (s' t' : State σ), C.Agree s' t' →
      C.Matches (settle f s (.ok v s')) (settle f t (.ok v t')) := by
    intro v s' t' h
    have hout : C.Agree { s' with locals := s.locals, depth := s'.depth - 1 }
        { t' with locals := t.locals, depth := t'.depth - 1 } :=
      ⟨hst.locals, congrArg (· - 1) h.depth, h.outer⟩
    unfold settle
    by_cases hresult : f.result = .none
    · simp only [if_pos hresult]
      exact .ok hout
    · simp only [if_neg hresult]
      cases v with
      | none => exact .error hout
      | some v => exact .ok hout
  cases h with
  | ok h => exact hfinish _ _ _ h
  | @error e s' t' h =>
    have hout : C.Agree { s' with locals := s.locals, depth := s'.depth - 1 }
        { t' with locals := t.locals, depth := t'.depth - 1 } :=
      ⟨hst.locals, congrArg (· - 1) h.depth, h.outer⟩
    cases e with
    | finish v => exact hfinish v s' t' h
    | branch label => exact .error hout
    | trap reason => exact .error hout
    | stalled => exact .error hout
  -- What is cut short passes through the end of the body, and the second run may end in any way.
  | @cut e s' _ h =>
    have hout : C.Cut e { s' with locals := s.locals, depth := s'.depth - 1 }
        (final (settle f t r')) := by
      rw [final_settle]
      exact ⟨h.abort, h.outer⟩
    cases e with
    | finish v => cases h.abort
    | branch label => cases h.abort
    | trap reason => exact .cut hout
    | stalled => exact .cut hout

/-- Calls of a function are coupled if its body is. -/
private theorem Coupled.runBody {run run' : Node → Run σ (Option Value)} {f : Function}
    (h : Coupled C (run f.body) (run' f.body)) (args : List Value) :
    Coupled C (runBody run f args) (runBody run' f args) where
  ends s t hst := by
    rw [runBody_apply, runBody_apply, hst.depth]
    -- Both runs are at the same depth, so both have room for the call or neither has.
    by_cases hdepth : t.depth = maxDepth
    · rw [if_pos hdepth, if_pos hdepth]
      exact .error hst
    rw [if_neg hdepth, if_neg hdepth]
    cases f.locals.mapM fun l => Value.zero? l.slot with
    | none => exact .error hst
    | some zeros =>
      have hinner : C.Agree { s with locals := args ++ zeros, depth := t.depth + 1 }
          { t with locals := args ++ zeros, depth := t.depth + 1 } :=
        ⟨rfl, rfl, hst.outer⟩
      exact matches_settle f hst (h.ends _ _ hinner)
  stable e s :=
    keeps_runBody (h.stable e s) (fun _ _ h _ => ⟨h.abort, h.outer⟩)
      (fun _ _ _ h => ⟨h.abort, h.outer⟩) (fun _ => trivial) (fun _ _ _ => trivial)
      (fun _ _ => trivial) (fun _ _ _ => trivial) trivial trivial

/-- Calls are coupled if spending fuel is, and the host or the body that they run is. -/
private theorem Coupled.enter {env : Environment σ} {run run' : Node → Run σ (Option Value)}
    (hspend : Coupled C (Run.spend : Run σ Unit) Run.spend)
    (hhost : ∀ id host, env.host? id = some host →
      ∀ args, Coupled C (runHost host args) (runHost host args))
    (hbody : ∀ n, Coupled C (run n) (run' n)) (id : Nat) (args : List Value) :
    Coupled C (env.enter run id args) (env.enter run' id args) := by
  -- The checks of the callee and its arguments do not look at the state.
  refine hspend.bind fun _ => ?_
  cases env.module.callee? id with
  | none => exact coupled_trap _
  | some callee =>
    dsimp only
    split
    next => exact coupled_trap _
    next =>
      cases findMismatch? callee.params args with
      | some reason => exact coupled_trap _
      | none =>
        cases callee with
        | defined f => exact (hbody f.body).runBody args
        | imported i =>
          dsimp only
          cases hbound : env.host? id with
          | none => exact coupled_trap _
          | some host => exact hhost id host hbound args

/-- The two runs of a call are coupled if spending fuel and calling hosts are. The induction is on
    the clock of the second run. -/
theorem call_coupled {env : Environment σ} (hspend : Coupled C (Run.spend : Run σ Unit) Run.spend)
    (hhost : ∀ id host, env.host? id = some host →
      ∀ args, Coupled C (runHost host args) (runHost host args)) {clock clock' : Nat}
    (hclocks : C.Clocks clock clock') : CallsCoupled C (env.call clock) (env.call clock') := by
  have hloop : ∀ {k k' : Nat}, C.Clocks k k' → LoopsCoupled C k k' :=
    fun hclocks label _ _ h => Coupled.repeating label hspend h hclocks
  induction clock' generalizing clock with
  | zero =>
    obtain rfl : clock = 0 := Nat.le_zero.1 hclocks.le
    exact fun id args => .enter hspend hhost (fun n => coupled_throw _) id args
  | succ clock' ih =>
    cases clock with
    | zero =>
      refine fun id args => .enter hspend hhost (fun n => ?_) id args
      -- What the second run does in the body is compared with a run that is over.
      have hnode := coupled_node (ih (.refl clock')) (hloop (.refl clock')) n
      refine ⟨fun s t hst => .cut ?_, hnode.stable⟩
      exact (hnode.stable _ _).final (hclocks.stall (Nat.succ_pos _) s t hst)
    | succ clock =>
      have hnode := coupled_node (ih hclocks.pred) (hloop hclocks.pred)
      exact fun id args => .enter hspend hhost hnode id args

end Weir.Machine
