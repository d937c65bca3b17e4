import Weir.Proofs.RunInvariant
import Weir.Proofs.Scoping

/-!
# Runs of well-scoped code

A module that passes its check never runs into a structural defect. What has to agree are two
traversals: the checker keeps a list of the labels in scope, a run unwinds branches through the
nodes around them. The invariant of a run is the number of locals; what it may end with is
`Exit.Within` the labels around the node.

## Key results

- `keeps_of_scoped`: a well-scoped node only branches to labels around it, and only touches
  locals that are there
- `call_keeps_of_check`: no call with the right number of arguments meets a defect
- `invoke_structural_of_check`: nor does an invocation, once it is past its own two checks
-/

namespace Weir.Machine

open Weir.Code

/-- Traps whose cause is a defect in the structure of the code. -/
def Trap.isStructural : Trap → Bool
  | unknownFunction _ | arityMismatch .. | unknownLocal _ | unboundLabel _ => true
  | unreachable | outOfFuel | integerDivideByZero | integerOverflow | missingHost _
  | typeMismatch .. | missingValue | callStackExhausted | host _ => false

/-- A trap over operands tells of no defect of the module. -/
private theorem Trap.isStructural_of_isOfOperands {t : Trap} (h : t.isOfOperands) :
    t.isStructural = false := by
  cases t <;> first | rfl | cases h

/-- The ways in which code can end early inside the given labels without a structural defect. -/
def Exit.Within (labels : List Label) : Exit → Prop
  | branch label => label ∈ labels
  | trap reason => reason.isStructural = false
  | finish _ | stalled => True

/-- An exit that needs no label needs none of those around it. -/
private theorem Exit.Within.of_nil {labels : List Label} {e : Exit} (h : e.Within []) :
    e.Within labels := by
  cases e with
  | branch label => exact absurd h (by simp [Exit.Within])
  | _ => exact h

/-- An exit that the binder of a label does not catch is one for the labels further out. -/
private theorem Exit.Within.of_cons {label : Label} {labels : List Label} {e : Exit}
    (h : e.Within (label :: labels)) (hne : e ≠ .branch label) : e.Within labels := by
  cases e with
  | branch target =>
    rcases List.mem_cons.1 h with rfl | hmem
    · exact absurd rfl hne
    · exact hmem
  | _ => exact h

variable {σ : Type}

/-- A frame with the given number of locals. -/
def HasLocals (count : Nat) (s : State σ) : Prop := s.locals.length = count

/-! ## Nodes -/

section

variable {call : Nat → List Value → Run σ (Option Value)} {clock : Nat} {s : Surroundings}
  {labels : List Label}

/-- The result of an operator is all that is left to do. -/
private theorem keeps_operator {I : State σ → Prop} {r : Except Trap Value}
    (h : ∀ t, r = .error t → t.isOfOperands) :
    Keeps I (do let v ← Run.ofExcept r; pure (some v) : Run σ (Option Value))
      (fun _ => True) (Exit.Within labels) :=
  (keeps_ofExcept (Q := fun _ => True) (fun _ _ => trivial)
    fun t ht => Trap.isStructural_of_isOfOperands (h t ht)).bind fun _ _ => keeps_pure trivial

/-- Writing a declared local of a frame keeps the number of its locals. -/
private theorem keeps_setLocal_declared {index : Nat} {v : Value} (h : index < s.localCount) :
    Keeps (HasLocals s.localCount) (Run.setLocal index v : Run σ Unit) (fun _ => True)
      (Exit.Within labels) := by
  refine keeps_setLocal (fun s' old hs' _ _ => ?_) (fun _ _ _ _ _ => rfl)
    (fun s' hs' hnone => ?_)
  · simpa [HasLocals] using hs'
  · rw [List.getElem?_eq_none_iff] at hnone
    unfold HasLocals at hs'
    omega

/-- A truth value of a node that keeps within its labels. -/
private theorem keeps_condition {run : Run σ (Option Value)} {I : State σ → Prop}
    (h : Keeps I run (fun _ => True) (Exit.Within labels)) :
    Keeps I (Run.condition run) (fun _ => True) (Exit.Within labels) :=
  h.condition rfl fun _ _ _ => rfl

/-- Well-scoped code keeps the number of locals. It branches to labels around it only, and finds
    every local and every callee. The induction is on how the node is scoped: a block or a loop
    puts its label in scope and is the one that catches it. -/
theorem keeps_of_scoped {n : Node} (hn : n.Scoped s labels)
    (hcall : ∀ id args, s.Reaches id args.length →
      Keeps (HasLocals s.localCount) (call id args) (fun _ => True) (Exit.Within [])) :
    Keeps (HasLocals s.localCount) (evalNode call clock n) (fun _ => True)
      (Exit.Within labels) := by
  induction hn with
  | nop => simp only [evalNode]; exact keeps_pure trivial
  | unreachable => simp only [evalNode]; exact keeps_trap rfl
  | const => simp only [evalNode]; exact keeps_pure trivial
  | ret => simp only [evalNode]; exact keeps_throw trivial
  | br hbound => simp only [evalNode]; exact keeps_throw hbound
  | sequence _ ih => simp only [evalNode]; exact keeps_evalAll ih
  | block _ _ ih =>
    -- The label is in scope inside the block only; a branch to it does not get out.
    simp only [evalNode]
    exact (keeps_evalAll ih).catching trivial fun e he hne => he.of_cons hne
  | loop _ _ ih =>
    simp only [evalNode]
    exact ih.repeating (F := Exit.Within _) (keeps_spend (fun _ _ hs _ => hs) rfl) trivial
      (fun e he hne => he.of_cons hne) clock
  | ifThen _ _ hc ht =>
    simp only [evalNode]
    refine (keeps_condition hc).bind fun b _ => Keeps.ite ?_ ?_
    · exact ht
    · exact keeps_pure trivial
  | ifElse _ _ _ hc ht he =>
    simp only [evalNode]
    refine (keeps_condition hc).bind fun b _ => Keeps.ite ?_ ?_
    · exact ht
    · exact he
  | select _ _ _ ht he hc =>
    simp only [evalNode]
    exact (ht.value rfl).bind fun _ _ => (he.value rfl).bind fun _ _ =>
      (keeps_condition hc).bind fun _ _ => keeps_pure trivial
  | brIf hbound _ hc =>
    simp only [evalNode]
    refine (keeps_condition hc).bind fun b _ => Keeps.ite ?_ ?_
    · exact keeps_throw hbound
    · exact keeps_pure trivial
  | @brTable labels targets fallback index hbound hfallback _ ih =>
    simp only [evalNode]
    refine (ih.value rfl).bind fun v _ =>
      (keeps_ofExcept (Q := fun _ => True) (fun _ _ => trivial) fun _ ht =>
        Trap.isStructural_of_isOfOperands (toI32_eq_error ht)).bind fun i _ => keeps_throw ?_
    -- Whatever the index is, it picks one of the labels of the table.
    show targets[i.toNat]?.getD fallback ∈ labels
    cases hi : targets[i.toNat]? with
    | none => exact hfallback
    | some target => exact hbound target (List.mem_of_getElem? hi)
  | retValue _ ih =>
    simp only [evalNode]
    exact (ih.value rfl).bind fun _ _ => keeps_throw trivial
  | drop _ ih =>
    simp only [evalNode]
    exact ih.bind fun _ _ => keeps_pure trivial
  | @localGet labels index slot hdeclared =>
    simp only [evalNode]
    refine (keeps_getLocal (Q := fun _ => True) (fun _ _ _ _ => trivial)
      fun s' hs' hnone => ?_).bind fun _ _ => keeps_pure trivial
    -- The frame has as many locals as the checker counted.
    rw [List.getElem?_eq_none_iff] at hnone
    unfold HasLocals at hs'
    omega
  | localSet hdeclared _ ih | localTee hdeclared _ ih =>
    simp only [evalNode]
    exact (ih.value rfl).bind fun _ _ => (keeps_setLocal_declared hdeclared).bind fun _ _ =>
      keeps_pure trivial
  | unary _ ih =>
    simp only [evalNode]
    exact (ih.value rfl).bind fun _ _ => keeps_operator fun _ => unary_eq_error
  | binary _ _ hl hr =>
    simp only [evalNode]
    exact (hl.value rfl).bind fun _ _ => (hr.value rfl).bind fun _ _ =>
      keeps_operator fun _ => binary_eq_error
  | convert _ ih =>
    simp only [evalNode]
    exact (ih.value rfl).bind fun _ _ => keeps_operator fun _ => convert_eq_error
  | call hcallee _ ih =>
    -- There is one value for each argument, which is how many parameters the callee has.
    simp only [evalNode]
    refine (keeps_evalArgs (E := Exit.Within _) rfl ih).bind fun vs hvs => ?_
    exact (hcall _ vs (hvs ▸ hcallee)).mono (fun _ _ => trivial) fun e he => he.of_nil

end

/-! ## Calls -/

variable {env : Environment σ} {clock : Nat} {name : String} {args : List Value}

/-- The ways in which a call can end early without a structural defect. -/
def Exit.Outside (e : Exit) : Prop := e.isAbort ∧ e.Within []

/-- A call meets no defect if the bodies of defined functions do not. -/
private theorem keeps_enter_of_bodies {run : Node → Run σ (Option Value)} {id count : Nat}
    (hhosts : env.HostsFailAsHosts)
    (hcallee : ∃ c, env.module.callee? id = some c ∧ c.params.length = args.length)
    (hbody : ∀ f ∈ env.module.functions,
      Keeps (HasLocals f.localCount) (run f.body) (fun _ => True) (Exit.Within [])) :
    Keeps (HasLocals count) (env.enter run id args) (fun _ => True) Exit.Outside := by
  obtain ⟨callee, hcallee, hlen⟩ := hcallee
  refine keeps_enter (keeps_spend (fun _ _ hs _ => hs) ⟨rfl, rfl⟩) (fun hnone => ?_)
    (fun c hc hne => ?_) (fun c reason _ _ _ hreason => ?_) (fun _ _ _ => ⟨rfl, rfl⟩)
    (fun i host _ hbound _ => ?_) (fun f hf hslots => ?_)
  -- The callee is there, and has as many parameters as there are arguments.
  · rw [hnone] at hcallee
    cases hcallee
  · rw [hc] at hcallee
    cases hcallee
    exact absurd hlen hne
  · obtain ⟨expected, found, rfl⟩ := findMismatch?_eq_some hreason
    exact ⟨rfl, rfl⟩
  · refine keeps_runHost (fun _ _ hs => hs) (fun _ _ _ _ => trivial) fun w reason w' hfail => ?_
    obtain ⟨text, rfl⟩ := hhosts id host hbound args w reason w' hfail
    exact ⟨rfl, rfl⟩
  · refine keeps_runBody (hbody f (Module.mem_of_callee? hf)) (fun s zeros _ hzeros => ?_)
      (fun _ _ hs _ => hs) (fun _ => trivial) (fun _ _ _ => trivial)
      (fun label hlabel => absurd hlabel (by simp [Exit.Within])) (fun e habort he => ⟨habort, he⟩)
      ⟨rfl, rfl⟩ ⟨rfl, rfl⟩
    -- The frame of the callee has its arguments, one for each parameter, and its other locals.
    have hargs : args.length = f.params.length := by
      simpa [Function.paramSlots] using congrArg List.length hslots
    have hlocals : zeros.length = f.locals.length := by
      simpa using congrArg List.length (slots_of_zeros hzeros)
    simp [HasLocals, Function.localCount, hargs, hlocals]

/-- In a module that passes its check, a call of a callee with as many arguments as it has
    parameters meets no defect, however deep the calls go. The induction is on the clock, which
    bounds their depth. -/
theorem call_keeps_of_check (hcheck : env.module.check = .ok ()) (hhosts : env.HostsFailAsHosts)
    {count id : Nat}
    (hcallee : ∃ c, env.module.callee? id = some c ∧ c.params.length = args.length) :
    Keeps (HasLocals count) (env.call clock id args) (fun _ => True) Exit.Outside := by
  have hscoped := Module.check_eq_ok_iff.1 hcheck
  induction clock generalizing count id args with
  | zero =>
    exact keeps_enter_of_bodies hhosts hcallee fun f hf => keeps_throw trivial
  | succ clock ih =>
    refine keeps_enter_of_bodies hhosts hcallee fun f hf => ?_
    refine keeps_of_scoped (hscoped f hf) fun id args hreaches => ?_
    exact (ih (hreaches env.module rfl)).mono (fun _ h => h) fun _ h => h.2

/-! ## Invocations -/

/-- The traps over structure that an invocation can end in before any code runs: its name is
    unknown, or its arguments are not as many as the parameters of the function it names. -/
def Environment.Refuses (env : Environment σ) (name : String) (args : List Value) (t : Trap) :
    Prop :=
  (env.module.findFunction? name = none ∧ t = .unknownFunction name) ∨
    ∃ id f, env.module.findFunction? name = some id ∧ env.module.callee? id = some (.defined f) ∧
      f.params.length ≠ args.length ∧ t = .arityMismatch f.name f.params.length args.length

/-- A call with the wrong number of arguments is refused, unless the fuel is used up. -/
private theorem enter_of_arity {run : Node → Run σ (Option Value)} {id : Nat} {f : Function}
    {s s' : State σ} {e : Exit} (hcallee : env.module.callee? id = some (.defined f))
    (hne : f.params.length ≠ args.length) (h : env.enter run id args s = .error e s') :
    e = .trap .outOfFuel ∨
      e = .trap (.arityMismatch f.name f.params.length args.length) := by
  have hparams : (Callee.defined f).params.length = f.params.length := by
    simp [Callee.params, Function.paramSlots]
  unfold Environment.enter at h
  rw [Run.bind_apply] at h
  cases hfuel : (Run.spend s : EStateM.Result Exit (State σ) Unit) with
  | error e₁ s₁ =>
    rw [hfuel] at h
    cases h
    exact .inl (Run.eq_outOfFuel_of_spend hfuel)
  | ok u s₁ =>
    simp only [hfuel, hcallee, hparams, if_pos hne] at h
    cases h
    exact .inr rfl

/-- An invocation of a module that passes its check ends in a trap over structure only if it is
    refused before any code runs: past that, every branch finds its label, every local is there,
    and every call inside reaches a callee with as many parameters as it passes arguments. -/
theorem invoke_structural_of_check (hcheck : env.module.check = .ok ())
    (hhosts : env.HostsFailAsHosts) {s s' : State σ} {e : Exit}
    (h : env.invoke clock name args s = .error e s') :
    e = .stalled ∨ ∃ t, e = .trap t ∧ (t.isStructural → env.Refuses name args t) := by
  unfold Environment.invoke at h
  cases hfind : env.module.findFunction? name with
  | none =>
    rw [hfind] at h
    cases h
    exact .inr ⟨_, rfl, fun _ => .inl ⟨hfind, rfl⟩⟩
  | some id =>
    simp only [hfind] at h
    obtain ⟨f, hf, -⟩ := Module.callee?_of_findFunction? hfind
    by_cases hlen : f.params.length = args.length
    · -- The arguments are as many as the parameters: the call meets no defect at all.
      have hcallee : ∃ c, env.module.callee? id = some c ∧ c.params.length = args.length :=
        ⟨_, hf, by simpa [Callee.params, Function.paramSlots] using hlen⟩
      have hout := ((call_keeps_of_check hcheck hhosts hcallee).of_error rfl h).2
      cases e with
      | branch label => exact absurd hout.1 (by simp [Exit.isAbort])
      | finish v => exact absurd hout.1 (by simp [Exit.isAbort])
      | stalled => exact .inl rfl
      | trap t =>
        have hno : t.isStructural = false := hout.2
        exact .inr ⟨t, rfl, fun hyes => absurd hyes (by simp [hno])⟩
    -- With another number of arguments the call is refused before the body.
    · have hrefused : e = .trap .outOfFuel ∨
          e = .trap (.arityMismatch f.name f.params.length args.length) := by
        cases clock with
        | zero => exact enter_of_arity hf hlen h
        | succ clock => exact enter_of_arity hf hlen h
      rcases hrefused with rfl | rfl
      · exact .inr ⟨_, rfl, fun hyes => absurd hyes (by simp [Trap.isStructural])⟩
      · exact .inr ⟨_, rfl, fun _ => .inr ⟨id, f, hfind, hf, hlen, rfl⟩⟩

/-- A module whose function calls a host for every number from its argument down to one. -/
def countdown : Module where
  imports := [⟨"log", [.i32], .none⟩]
  functions := [{
    name := "main"
    params := [⟨"n", .i32⟩]
    result := .none
    locals := []
    isExported := true
    body := .block (some ⟨.exit, 0⟩) [.loop ⟨.next, 0⟩
      (.ifThen .none (.localGet 0 .i32) (.block none
        [.call 0 [.localGet 0 .i32] .none,
          .localSet 0 (.binary .sub .i32 (.localGet 0 .i32) (.i32Const 1)),
          .br ⟨.next, 0⟩]))] }]

/-- A host that counts its calls and gives up on the second one. -/
def refusingHost : Host Nat := fun _ calls =>
  if calls = 1 then .error (.host "full") calls else .ok none (calls + 1)

/-- The module is in order, so all it can fail with here is the failure of its host. -/
theorem countdown_invoke_host_failure :
    let env : Environment Nat := ⟨countdown, fun _ => some refusingHost⟩
    let start : State Nat := ⟨[], some 9, 0, 0⟩
    countdown.check = .ok () ∧
      env.invoke 4 "main" [.i32 3] start = .error (.trap (.host "full")) ⟨[], some 4, 0, 1⟩ ∧
      (Exit.trap (.host "full") = .stalled ∨
        ∃ t, Exit.trap (.host "full") = .trap t ∧
          (t.isStructural → env.Refuses "main" [.i32 3] t)) := by
  intro env start
  have hcheck : countdown.check = .ok () := rfl
  have hrun : env.invoke 4 "main" [.i32 3] start =
      .error (.trap (.host "full")) ⟨[], some 4, 0, 1⟩ := by rfl
  refine ⟨hcheck, hrun, invoke_structural_of_check hcheck ?_ hrun⟩
  intro id host hbound args w reason w' hfail
  cases hbound
  simp only [refusingHost] at hfail
  split at hfail
  · cases hfail
    exact ⟨"full", rfl⟩
  · cases hfail

end Weir.Machine
