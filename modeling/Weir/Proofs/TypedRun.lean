import Weir.Proofs.RunInvariant
import Weir.Proofs.Typing

/-!
# Runs of typed code

Types are only checked while code runs, where a write, an operator or a call meets a value of
another slot than it asks for. Typed code never gets there. The invariant of a run is that every
local lies in its slot.

## Key results

- `keeps_of_typed`: a typed node yields a value of its slot and keeps the slots of the locals
- `call_keeps_of_typed`: in a typed module a call yields a value of the result of its callee
-/

namespace Weir.Machine

open Weir.Code

/-- The slot of what a run yields. -/
def resultSlot : Option Value → Slot
  | none => .none
  | some v => v.slot

/-- Traps over a value of the wrong slot. -/
def Trap.isTypeMismatch : Trap → Bool
  | typeMismatch .. => true
  | _ => false

/-- The ways in which code that returns values of the given slot can end early without ever having
    met a value of the wrong slot. -/
def Exit.Fits (result : Slot) : Exit → Prop
  | finish v => resultSlot v = result
  | trap reason => reason.isTypeMismatch = false
  | branch _ | stalled => True

/-- The ways in which a call can end early without a value of the wrong slot. -/
def Exit.FitsCall (e : Exit) : Prop := e.isAbort ∧ e.Fits .none

/-- What a call may end with, the node of the call may end with. -/
private theorem Exit.FitsCall.fits {e : Exit} (h : e.FitsCall) (result : Slot) : e.Fits result := by
  cases e with
  | finish v => exact absurd h.1 (by simp [Exit.isAbort])
  | _ => exact h.2

variable {σ : Type}

/-- A frame whose locals lie in the given slots. -/
def HasSlots (slots : List Slot) (s : State σ) : Prop := s.locals.map Value.slot = slots

/-- Every local has a value of its slot. -/
theorem HasSlots.getElem? {slots : List Slot} {s : State σ} {index : Nat} {v : Value}
    (hs : HasSlots slots s) (h : s.locals[index]? = some v) : slots[index]? = some v.slot := by
  rw [← hs, List.getElem?_map, h]
  rfl

/-- A local that is typed is there. -/
theorem HasSlots.ne_none {slots : List Slot} {s : State σ} {index : Nat} {slot : Slot}
    (hs : HasSlots slots s) (h : slots[index]? = some slot) : s.locals[index]? ≠ none := by
  intro hnone
  rw [← hs, List.getElem?_map, hnone] at h
  cases h

/-- A local that is set to a value of its slot keeps it. -/
theorem HasSlots.set {slots : List Slot} {s : State σ} {index : Nat} {v : Value}
    (hs : HasSlots slots s) (h : slots[index]? = some v.slot) :
    HasSlots slots { s with locals := s.locals.set index v } := by
  have hlocals : s.locals.map Value.slot = slots := hs
  unfold HasSlots
  rw [List.map_set, hlocals]
  obtain ⟨hlt, heq⟩ := List.getElem?_eq_some_iff.1 h
  rw [← heq, List.set_getElem_self]

/-! ## Nodes -/

section

variable {call : Nat → List Value → Run σ (Option Value)} {clock : Nat} {Γ : TypeContext}

/-- What is kept by a typed run that yields a value of the given slot. -/
abbrev KeepsSlots (Γ : TypeContext) (run : Run σ (Option Value)) (s : Slot) : Prop :=
  Keeps (HasSlots Γ.locals) run (fun v => resultSlot v = s) (Exit.Fits Γ.result)

private theorem KeepsSlots.value {run : Run σ (Option Value)} {s : Slot}
    (h : KeepsSlots Γ run s) : Keeps (HasSlots Γ.locals) (Run.value run)
      (fun v => v.slot = s) (Exit.Fits Γ.result) :=
  Keeps.value h rfl

private theorem KeepsSlots.condition {run : Run σ (Option Value)} (h : KeepsSlots Γ run .i32) :
    Keeps (HasSlots Γ.locals) (Run.condition run) (fun _ => True) (Exit.Fits Γ.result) :=
  Keeps.condition h rfl fun _ hv hne => absurd hv hne

/-- Writing a local of the slot of the value. -/
private theorem keeps_setLocal_typed {index : Nat} {v : Value}
    (h : Γ.locals[index]? = some v.slot) :
    Keeps (HasSlots Γ.locals) (Run.setLocal index v : Run σ Unit) (fun _ => True)
      (Exit.Fits Γ.result) := by
  refine keeps_setLocal (fun s old hs _ _ => hs.set h) (fun s old hs hold hne => ?_)
    (fun s hs hnone => absurd hnone (hs.ne_none h))
  have hslot := hs.getElem? hold
  rw [h, Option.some.injEq] at hslot
  exact absurd hslot.symm hne

/-- The result of an operator that has one, and otherwise traps over a division. -/
private theorem keeps_operator_typed {r : Except Trap Value} {s : Slot}
    (hok : ∀ v, r = .ok v → v.slot = s) (herror : ∀ t, r = .error t → t.isTypeMismatch = false) :
    KeepsSlots Γ (do let v ← Run.ofExcept r; pure (some v) : Run σ (Option Value)) s :=
  (keeps_ofExcept (Q := fun v => v.slot = s) hok herror).bind fun _ hv => keeps_pure hv

/-- Calls of callees that the context types: on arguments in the slots of the parameters they yield
    a value of the result. -/
def CallsKeepSlots (call : Nat → List Value → Run σ (Option Value)) (Γ : TypeContext) : Prop :=
  ∀ id params result args, Γ.callee? id = some (params, result) → args.map Value.slot = params →
    Keeps (HasSlots Γ.locals) (call id args) (fun v => resultSlot v = result) Exit.FitsCall

mutual

/-- Typed code yields a value of its slot and keeps the slots of the locals. The induction is on
    the node; a block or a loop gives back what its last node or its body yields. -/
theorem keeps_of_typed (hcall : CallsKeepSlots call Γ) {labels : List Label} {s : Slot} :
    (n : Node) → n.Typed Γ labels s → KeepsSlots Γ (evalNode call clock n) s
  | .nop, .nop => by simp only [evalNode]; exact keeps_pure rfl
  | .unreachable, _ => by simp only [evalNode]; exact keeps_trap rfl
  | .const v, .const => by simp only [evalNode]; exact keeps_pure rfl
  | .ret, .ret hvoid => by simp only [evalNode]; exact keeps_throw hvoid.symm
  | .br label, _ => by simp only [evalNode]; exact keeps_throw trivial
  | .block none children, .sequence h => by
    simp only [evalNode]
    refine keeps_of_typedAll hcall none children h fun hnil => ?_
    -- An empty sequence is typed as one that yields nothing.
    subst hnil
    cases h
    rfl
  | .block (some label) children, .block _ h => by
    simp only [evalNode]
    have hchildren := keeps_of_typedAll hcall none children h fun _ => rfl
    exact hchildren.catching rfl fun e he _ => he
  | .loop label body, .loop _ h => by
    simp only [evalNode]
    have hbody := keeps_of_typed hcall body h
    exact hbody.repeating (F := Exit.Fits Γ.result) (keeps_spend (fun _ _ hs _ => hs) rfl) trivial
      (fun e he _ => he) clock
  | .ifThen _ c t, .ifThen hc ht => by
    simp only [evalNode]
    refine (keeps_of_typed hcall c hc).condition.bind fun b _ => Keeps.ite ?_ ?_
    · exact keeps_of_typed hcall t ht
    · exact keeps_pure rfl
  | .ifElse _ c t e, .ifElse hc ht he => by
    simp only [evalNode]
    refine (keeps_of_typed hcall c hc).condition.bind fun b _ => Keeps.ite ?_ ?_
    · exact keeps_of_typed hcall t ht
    · exact keeps_of_typed hcall e he
  | .select c t e, .select ht he hc => by
    simp only [evalNode]
    refine (keeps_of_typed hcall t ht).value.bind fun v hv => ?_
    refine (keeps_of_typed hcall e he).value.bind fun w hw => ?_
    refine (keeps_of_typed hcall c hc).condition.bind fun b _ => keeps_pure ?_
    cases b with
    | true => exact hv
    | false => exact hw
  | .brIf label c, .brIf _ hc => by
    simp only [evalNode]
    refine (keeps_of_typed hcall c hc).condition.bind fun b _ => Keeps.ite ?_ ?_
    · exact keeps_throw trivial
    · exact keeps_pure rfl
  | .brTable targets fallback index, .brTable _ _ h => by
    simp only [evalNode]
    refine (keeps_of_typed hcall index h).value.bind fun v hv => ?_
    refine (keeps_ofExcept (Q := fun _ => True) (fun _ _ => trivial) fun t ht => ?_).bind
      fun _ _ => keeps_throw trivial
    -- The index is a 32-bit integer, so reading it never fails.
    cases v with
    | i32 a => simp [Value.toI32] at ht
    | i64 a | f32 a | f64 a => cases hv
  | .retValue e, .retValue h => by
    simp only [evalNode]
    exact (keeps_of_typed hcall e h).value.bind fun v hv => keeps_throw hv
  | .drop e, .drop h => by
    simp only [evalNode]
    exact (keeps_of_typed hcall e h).bind fun _ _ => keeps_pure rfl
  | .localGet index slot, .localGet hlocal => by
    simp only [evalNode]
    refine (keeps_getLocal (Q := fun v => v.slot = slot) (fun st v hs hv => ?_)
      fun st hs hnone => absurd hnone (hs.ne_none hlocal)).bind fun v hv => keeps_pure hv
    -- The node is annotated with the slot of the local.
    have hslot := hs.getElem? hv
    rw [hlocal, Option.some.injEq] at hslot
    exact hslot.symm
  | .localSet index e, .localSet hlocal h => by
    simp only [evalNode]
    refine (keeps_of_typed hcall e h).value.bind fun v hv => ?_
    exact (keeps_setLocal_typed (hv ▸ hlocal)).bind fun _ _ => keeps_pure rfl
  | .localTee index _ e, .localTee hlocal h => by
    simp only [evalNode]
    refine (keeps_of_typed hcall e h).value.bind fun v hv => ?_
    exact (keeps_setLocal_typed (hv ▸ hlocal)).bind fun _ _ => keeps_pure hv
  | .unary op operand e, .unary haccepts h => by
    simp only [evalNode]
    refine (keeps_of_typed hcall e h).value.bind fun v hv => ?_
    subst hv
    -- On an operand of its slot the operator always has a result.
    obtain ⟨r, hr, hslot⟩ := UnaryOp.eval_of_slot haccepts
    exact keeps_operator_typed (fun w hw => by rw [hr] at hw; cases hw; exact hslot)
      (fun t ht => by rw [hr] at ht; cases ht)
  | .binary op operand l r, .binary haccepts hl hr => by
    simp only [evalNode]
    refine (keeps_of_typed hcall l hl).value.bind fun v hv => ?_
    refine (keeps_of_typed hcall r hr).value.bind fun w hw => ?_
    subst hv
    rcases BinaryOp.eval_of_slot haccepts hw with ⟨r, hr, hslot⟩ | hr | hr
    · exact keeps_operator_typed (fun w hw => by rw [hr] at hw; cases hw; exact hslot)
        (fun t ht => by rw [hr] at ht; cases ht)
    -- A division traps, but not over the slots of its operands.
    · exact keeps_operator_typed (fun w hw => by rw [hr] at hw; cases hw)
        (fun t ht => by rw [hr] at ht; cases ht; rfl)
    · exact keeps_operator_typed (fun w hw => by rw [hr] at hw; cases hw)
        (fun t ht => by rw [hr] at ht; cases ht; rfl)
  | .convert c e, .convert h => by
    simp only [evalNode]
    refine (keeps_of_typed hcall e h).value.bind fun v hv => ?_
    obtain ⟨r, hr, hslot⟩ := Conversion.eval_of_slot hv
    exact keeps_operator_typed (fun w hw => by rw [hr] at hw; cases hw; exact hslot)
      (fun t ht => by rw [hr] at ht; cases ht)
  | .call id args _, .call hcallee h => by
    simp only [evalNode]
    refine (keeps_of_typedArgs hcall args h).bind fun vs hvs => ?_
    exact (hcall id _ _ vs hcallee hvs).mono (fun _ hv => hv) fun e he => he.fits _
termination_by structural n => n

/-- Nodes that are typed one after the other yield a value of the slot of the last of them. -/
private theorem keeps_of_typedAll (hcall : CallsKeepSlots call Γ) {labels : List Label} {s : Slot}
    (last : Option Value) : (ns : List Node) → TypedAll Γ labels ns s →
    (ns = [] → resultSlot last = s) → KeepsSlots Γ (evalAll call clock last ns) s
  | [], _, hlast => by simp only [evalAll]; exact keeps_pure (hlast rfl)
  | n :: ns, h, _ => by
    simp only [evalAll]
    cases h with
    | last hn =>
      exact (keeps_of_typed hcall n hn).bind fun v hv => keeps_pure hv
    | cons hn hne hns =>
      exact (keeps_of_typed hcall n hn).bind fun v _ =>
        keeps_of_typedAll hcall v ns hns fun hnil => absurd hnil hne
termination_by structural ns => ns

/-- Typed arguments yield values of the slots of the parameters. -/
theorem keeps_of_typedArgs (hcall : CallsKeepSlots call Γ) {labels : List Label}
    {params : List Slot} : (ns : List Node) → TypedArgs Γ labels ns params →
    Keeps (HasSlots Γ.locals) (evalArgs call clock ns) (fun vs => vs.map Value.slot = params)
      (Exit.Fits Γ.result)
  | [], .nil => by simp only [evalArgs]; exact keeps_pure rfl
  | n :: ns, .cons hn hns => by
    simp only [evalArgs]
    refine (keeps_of_typed hcall n hn).value.bind fun v hv => ?_
    refine (keeps_of_typedArgs hcall ns hns).bind fun vs hvs => keeps_pure ?_
    rw [List.map_cons, hv, hvs]
termination_by structural ns => ns

end

end

/-! ## Calls -/

/-- Hosts that answer in the slot of the result of their import. -/
def Environment.HostsAnswer (env : Environment σ) : Prop :=
  ∀ id i host, env.module.callee? id = some (.imported i) → env.host? id = some host →
    ∀ args w v w', host args w = .ok v w' → resultSlot v = i.result

/-- What a call may end with: a value of the given slot, which is none if the slot is, or an exit
    that is not over the slot of a value. -/
def Answers (result : Slot) : EStateM.Result Exit (State σ) (Option Value) → Prop
  | .ok v _ => resultSlot v = result
  | .error e _ => ∀ expected found, e ≠ .trap (.typeMismatch expected found)

variable {env : Environment σ} {clock : Nat}

/-- A call of a callee yields a value of its result if the bodies of defined functions do. -/
private theorem keeps_enter_of_typed {run : Node → Run σ (Option Value)} {locals : List Slot}
    {id : Nat} {c : Callee} {args : List Value} (hhosts : env.HostsFailAsHosts)
    (hanswer : env.HostsAnswer) (hcallee : env.module.callee? id = some c)
    (hargs : args.map Value.slot = c.params)
    (hbody : ∀ f ∈ env.module.functions, Keeps (HasSlots (env.module.typeContext f).locals)
      (run f.body) (fun v => resultSlot v = f.result) (Exit.Fits f.result)) :
    Keeps (HasSlots locals) (env.enter run id args) (fun v => resultSlot v = c.result)
      Exit.FitsCall := by
  have hlen : c.params.length = args.length := by
    rw [← hargs, List.length_map]
  refine keeps_enter (keeps_spend (fun _ _ hs _ => hs) ⟨rfl, rfl⟩) (fun hnone => ?_)
    (fun c' hc' hne => ?_) (fun c' reason hc' _ hne _ => ?_) (fun _ _ _ => ⟨rfl, rfl⟩)
    (fun i host hi hbound _ => ?_) (fun f hf hslots => ?_)
  -- The callee is there, and the arguments are what it asks for.
  · rw [hnone] at hcallee
    cases hcallee
  · rw [hc'] at hcallee
    cases hcallee
    exact absurd hlen hne
  · rw [hc'] at hcallee
    cases hcallee
    exact absurd hargs hne
  · rw [hi] at hcallee
    cases hcallee
    refine keeps_runHost (fun _ _ hs => hs)
      (fun w v w' hok => hanswer id i host hi hbound args w v w' hok) fun w reason w' hfail => ?_
    obtain ⟨text, rfl⟩ := hhosts id host hbound args w reason w' hfail
    exact ⟨rfl, rfl⟩
  · rw [hf] at hcallee
    cases hcallee
    refine keeps_runBody (hbody f (Module.mem_of_callee? hf)) (fun s zeros _ hzeros => ?_)
      (fun _ _ hs _ => hs) (fun hnone => ?_) (fun v hv _ => ?_) (fun label _ => ⟨rfl, rfl⟩)
      (fun e habort he => ⟨habort, ?_⟩) ⟨rfl, rfl⟩ ⟨rfl, rfl⟩
    · -- The frame of the callee has its arguments and its other locals, each in its slot.
      show (args ++ zeros).map Value.slot = f.paramSlots ++ f.locals.map Local.slot
      rw [List.map_append, hslots, slots_of_zeros hzeros]
    · exact hnone.symm
    · -- What the body yields and what it returns with lie in the same slot.
      exact hv.elim (fun h => h) fun h => h
    · cases e with
      | finish v => cases habort
      | branch label => cases habort
      | trap t => exact he
      | stalled => trivial

/-- In a typed module, a call of a callee on arguments in the slots of its parameters never meets a
    value of another slot than it asks for, and what it yields lies in the slot of the result of the
    callee. The induction is on the clock, which bounds the depth of the calls. -/
theorem call_keeps_of_typed (htyped : env.module.Typed) (hhosts : env.HostsFailAsHosts)
    (hanswer : env.HostsAnswer) {locals : List Slot} {id : Nat} {c : Callee} {args : List Value}
    (hcallee : env.module.callee? id = some c) (hargs : args.map Value.slot = c.params) :
    Keeps (HasSlots locals) (env.call clock id args) (fun v => resultSlot v = c.result)
      Exit.FitsCall := by
  -- The induction is on the clock, as the calls of the body run on what is left of it.
  induction clock generalizing locals id c args with
  | zero =>
    exact keeps_enter_of_typed hhosts hanswer hcallee hargs fun f hf => keeps_throw trivial
  | succ clock ih =>
    refine keeps_enter_of_typed hhosts hanswer hcallee hargs fun f hf => ?_
    refine keeps_of_typed (fun id params result args hΓ hargs => ?_) f.body (htyped f hf)
    obtain ⟨c, hc, heq⟩ := Option.map_eq_some_iff.1 hΓ
    cases heq
    exact ih hc hargs

/-- In a typed module, every call of a callee on arguments in the slots of its parameters answers in
    the slot of its result. -/
theorem call_answers_of_typed (htyped : env.module.Typed) (hhosts : env.HostsFailAsHosts)
    (hanswer : env.HostsAnswer) {id : Nat} {c : Callee} {args : List Value}
    (hcallee : env.module.callee? id = some c) (hargs : args.map Value.slot = c.params)
    (s : State σ) : Answers c.result (env.call clock id args s) := by
  have hkeeps : Keeps (HasSlots (s.locals.map Value.slot)) (env.call clock id args)
      (fun v => resultSlot v = c.result) Exit.FitsCall :=
    call_keeps_of_typed htyped hhosts hanswer hcallee hargs
  cases hrun : env.call clock id args s with
  | ok v s' => exact (hkeeps.of_ok rfl hrun).2
  | error e s' =>
    have hfits := (hkeeps.of_error rfl hrun).2.2
    rintro expected found rfl
    cases hfits

end Weir.Machine
