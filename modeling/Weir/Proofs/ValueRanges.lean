import Mathlib.Data.List.Forall2
import Weir.Proofs.Moments
import Weir.Source.Type

/-!
# Ranges of values

A value of a small type is kept in a slot that has room for more. `Ty.Contains` says which values
are in the range of a type, and `Node.MayYield` which values code may yield if its locals, and what
its callees give back, are in the range of their types. Code respects those types if everything that
it writes to a local, passes to a callee or returns is in range; such code keeps its locals in range
at every moment.

## Key results

- `keeps_of_respects`: code that respects its types keeps its locals in range, and yields only what
  it may yield
- `InRange.of_leads`, `InRange.of_reaches`: from one moment of a run to the next, and to any later
  one, the locals stay in range
- `call_keeps_range`: what a call gives back is in range
-/

namespace Weir.Source

open Weir.Code (Value)

/-- The least and the greatest number of a type that is smaller than its slot. -/
def Ty.bounds? : Ty → Option (Int × Int)
  | .bool => some (0, 1)
  | .i8 => some (-128, 127)
  | .u8 => some (0, 255)
  | .i16 => some (-32768, 32767)
  | .u16 => some (0, 65535)
  | .void | .i32 | .u32 | .i64 | .u64 | .usize | .f32 | .f64 => none

/-- A value is in the range of a type. Types that fill their slot have any value. -/
def Ty.Contains (t : Ty) (v : Value) : Prop :=
  ∀ lo hi, t.bounds? = some (lo, hi) → ∃ b, v = .i32 b ∧ lo ≤ b.toInt ∧ b.toInt ≤ hi

namespace Ty

variable {s t : Ty} {v : Value}

/-- A type without bounds contains every value. -/
theorem contains_of_bounds?_eq_none (h : t.bounds? = none) : t.Contains v := by
  intro lo hi hbounds
  rw [h] at hbounds
  cases hbounds

/-- A bounded type contains the 32-bit integers between its bounds. -/
theorem contains_i32 {b : BitVec 32} {lo hi : Int} (h : t.bounds? = some (lo, hi)) :
    t.Contains (.i32 b) ↔ lo ≤ b.toInt ∧ b.toInt ≤ hi := by
  constructor
  · intro hcontains
    obtain ⟨b', heq, hrange⟩ := hcontains lo hi h
    cases heq
    exact hrange
  · intro hrange lo' hi' h'
    rw [h] at h'
    cases h'
    exact ⟨b, rfl, hrange⟩

/-- A type has the values of one whose numbers it has. -/
theorem Contains.mono (h : s.Contains v) (hst : ∀ lo hi, t.bounds? = some (lo, hi) →
    ∃ lo' hi', s.bounds? = some (lo', hi') ∧ lo ≤ lo' ∧ hi' ≤ hi) : t.Contains v := by
  intro lo hi ht
  obtain ⟨lo', hi', hs, hlo, hhi⟩ := hst lo hi ht
  obtain ⟨b, hv, hbl, hbh⟩ := h lo' hi' hs
  exact ⟨b, hv, by omega, by omega⟩

/-- Zero is a number of every type. -/
theorem contains_zero {w : Code.Slot} (hw : Value.zero? w = some v)
    (hsmall : t.bounds? ≠ none → w = .i32) : t.Contains v := by
  intro lo hi h
  obtain rfl : w = .i32 := hsmall (by rw [h]; simp)
  cases hw
  refine ⟨0, rfl, ?_⟩
  cases t <;> cases h <;> decide

/-- Truth values are in range. -/
theorem contains_ofBool (b : Bool) : bool.Contains (.ofBool b) := by
  rw [Value.ofBool, contains_i32 rfl]
  cases b <;> decide

@[simp] theorem bounds?_resolve (w : PointerWidth) (t : Ty) :
    (t.resolve w).bounds? = t.bounds? := by
  cases w <;> cases t <;> rfl

/-- A type contains the values that its resolved type contains. -/
@[simp] theorem contains_resolve (w : PointerWidth) :
    (t.resolve w).Contains v ↔ t.Contains v := by
  unfold Contains
  rw [bounds?_resolve]

end Ty

end Weir.Source

namespace Weir.Code

open Weir.Source (Ty)

/-! ## Values that code may yield -/

/-- The source types that code is to respect: those of the locals of its function, of the parameters
    and results of callees, and of the result of the function. -/
structure SourceTypes where
  locals : List Ty
  callee? : Nat → Option (List Ty × Ty)
  result : Ty

/-- A value may be in a local. -/
def SourceTypes.MayHold (Γ : SourceTypes) (index : Nat) (v : Value) : Prop :=
  ∀ t, Γ.locals[index]? = some t → t.Contains v

mutual

/-- The values that a node may yield where locals and results of callees are in range. -/
def Node.MayYield (Γ : SourceTypes) : Node → Value → Prop
  | .nop, _ | .unreachable, _ | .br _, _ | .ret, _ | .drop _, _ | .brIf .., _ | .brTable .., _
  | .retValue _, _ | .localSet .., _ => False
  | .const c, v => v = c
  | .localGet index _, v => Γ.MayHold index v
  | .localTee _ _ e, v => e.MayYield Γ v
  | .block _ children, v => LastMayYield Γ children v
  | .loop _ body, v => body.MayYield Γ v
  | .ifThen _ _ t, v => t.MayYield Γ v
  | .ifElse _ _ t e, v | .select _ t e, v => t.MayYield Γ v ∨ e.MayYield Γ v
  | .unary op _ e, v => ∃ x, e.MayYield Γ x ∧ op.eval x = .ok v
  | .binary op _ l r, v => ∃ x y, l.MayYield Γ x ∧ r.MayYield Γ y ∧ op.eval x y = .ok v
  | .convert c e, v => ∃ x, e.MayYield Γ x ∧ c.eval x = .ok v
  | .call id _ _, v => ∃ params result, Γ.callee? id = some (params, result) ∧ result.Contains v
termination_by structural n => n

/-- The values that the last of some nodes may yield. -/
def LastMayYield (Γ : SourceTypes) : List Node → Value → Prop
  | [], _ => False
  | n :: ns, v => (ns = [] ∧ n.MayYield Γ v) ∨ LastMayYield Γ ns v
termination_by structural ns => ns

end

mutual

/-- What a node writes to a local, passes to a callee or returns is in range. -/
def Node.Respects (Γ : SourceTypes) : Node → Prop
  | .nop | .unreachable | .const _ | .localGet .. | .br _ | .ret => True
  | .block _ children => AllRespect Γ children
  | .loop _ body => body.Respects Γ
  | .ifThen _ c t => c.Respects Γ ∧ t.Respects Γ
  | .ifElse _ c t e | .select c t e => c.Respects Γ ∧ t.Respects Γ ∧ e.Respects Γ
  | .drop e | .unary _ _ e | .convert _ e | .brIf _ e | .brTable _ _ e => e.Respects Γ
  | .localSet index e | .localTee index _ e =>
    e.Respects Γ ∧ ∀ v, e.MayYield Γ v → Γ.MayHold index v
  | .retValue e => e.Respects Γ ∧ ∀ v, e.MayYield Γ v → Γ.result.Contains v
  | .binary _ _ l r => l.Respects Γ ∧ r.Respects Γ
  | .call id args _ => AllRespect Γ args ∧ ∃ params result,
    Γ.callee? id = some (params, result) ∧
      List.Forall₂ (fun n t => ∀ v, n.MayYield Γ v → t.Contains v) args params
termination_by structural n => n

/-- What any of the nodes writes, passes or returns is in range. -/
def AllRespect (Γ : SourceTypes) : List Node → Prop
  | [] => True
  | n :: ns => n.Respects Γ ∧ AllRespect Γ ns
termination_by structural ns => ns

end

variable {Γ : SourceTypes}

theorem allRespect_iff {ns : List Node} : AllRespect Γ ns ↔ ∀ n ∈ ns, n.Respects Γ := by
  induction ns with
  | nil => simp [AllRespect]
  | cons n ns ih => simp [AllRespect, ih]

theorem Node.respects_block {label : Option Label} {ns : List Node} :
    (Node.block label ns).Respects Γ ↔ ∀ n ∈ ns, n.Respects Γ :=
  allRespect_iff

/-- The operands of a node respect the types that the node respects. -/
private theorem Node.Respects.operand {n o : Node} (h : n.Respects Γ) (ho : o ∈ n.operands) :
    o.Respects Γ := by
  -- One case for each node that has operands, in the order they are run in.
  cases n with
  | nop | unreachable | block | loop | br | ret | const | localGet => cases ho
  | ifThen _ c t => cases List.mem_singleton.1 ho; exact h.1
  | ifElse _ c t e => cases List.mem_singleton.1 ho; exact h.1
  | brIf _ c => cases List.mem_singleton.1 ho; exact h
  | brTable _ _ e => cases List.mem_singleton.1 ho; exact h
  | drop e => cases List.mem_singleton.1 ho; exact h
  | unary _ _ e => cases List.mem_singleton.1 ho; exact h
  | convert _ e => cases List.mem_singleton.1 ho; exact h
  | retValue e => cases List.mem_singleton.1 ho; exact h.1
  | localSet _ e => cases List.mem_singleton.1 ho; exact h.1
  | localTee _ _ e => cases List.mem_singleton.1 ho; exact h.1
  | binary _ _ l r =>
    rcases List.mem_cons.1 ho with rfl | ho
    · exact h.1
    · cases List.mem_singleton.1 ho
      exact h.2
  | select c t e =>
    obtain ⟨hc, ht, he⟩ := h
    simp only [operands, List.mem_cons, List.not_mem_nil, or_false] at ho
    rcases ho with rfl | rfl | rfl
    · exact ht
    · exact he
    · exact hc
  | call _ args _ => exact allRespect_iff.1 h.1 o ho

end Weir.Code

namespace Weir.Machine

open Weir.Code
open Weir.Source (Ty)

variable {σ : Type}

/-! ## Nodes -/

/-- The current function has a local for each of the given types, with a value in its range. -/
def LocalsInRange (types : List Ty) (s : State σ) : Prop :=
  List.Forall₂ Ty.Contains types s.locals

/-- A local that is in range has a value of its type. -/
private theorem LocalsInRange.getElem? {types : List Ty} {s : State σ} (h : LocalsInRange types s)
    {index : Nat} {t : Ty} {v : Value} (ht : types[index]? = some t)
    (hv : s.locals[index]? = some v) : t.Contains v := by
  obtain ⟨hlt, rfl⟩ := List.getElem?_eq_some_iff.1 ht
  obtain ⟨hlt', rfl⟩ := List.getElem?_eq_some_iff.1 hv
  exact h.get hlt hlt'

/-- Lists that agree place by place still do when one of them gets a fitting element. -/
private theorem forall₂_set {types : List Ty} {vs : List Value} {index : Nat} {v : Value}
    (h : List.Forall₂ Ty.Contains types vs)
    (hv : ∀ t, types[index]? = some t → t.Contains v) :
    List.Forall₂ Ty.Contains types (vs.set index v) := by
  induction h generalizing index with
  | nil => exact .nil
  | cons hfirst hrest ih =>
    cases index with
    | zero => exact .cons (hv _ rfl) hrest
    | succ index => exact .cons hfirst (ih hv)

/-- A value that a function returns early is in the range of its result. -/
def Exit.InRange (result : Ty) : Exit → Prop
  | finish (some v) => result.Contains v
  | finish none | branch _ | trap _ | stalled => True

/-- What nothing catches carries no value. -/
private theorem Exit.inRange_of_isAbort {result : Ty} {e : Exit} (h : e.isAbort) :
    e.InRange result := by
  cases e with
  | finish v => cases h
  | branch label => trivial
  | trap t => trivial
  | stalled => trivial

section

variable {call : Nat → List Value → Run σ (Option Value)} {clock : Nat} {Γ : SourceTypes}

/-- What is kept by a run that yields values with the given property. -/
abbrev KeepsRange (Γ : SourceTypes) (run : Run σ (Option Value)) (P : Value → Prop) : Prop :=
  Keeps (LocalsInRange Γ.locals) run (fun v => ∀ x, v = some x → P x) (Exit.InRange Γ.result)

/-- Calls on arguments in range keep the ranges of the locals, and what they give back is in
    range. -/
def CallsKeepRange (call : Nat → List Value → Run σ (Option Value)) (Γ : SourceTypes) : Prop :=
  ∀ id params result args, Γ.callee? id = some (params, result) →
    List.Forall₂ Ty.Contains params args → KeepsRange Γ (call id args) result.Contains

variable {P : Value → Prop}

/-- Where a value is needed, it is one the node may yield. -/
private theorem KeepsRange.value {run : Run σ (Option Value)} (h : KeepsRange Γ run P) :
    Keeps (LocalsInRange Γ.locals) (Run.value run) P (Exit.InRange Γ.result) :=
  (Keeps.value h trivial).mono (fun v hv => hv v rfl) fun _ he => he

/-- Testing a value keeps the locals in range. -/
private theorem KeepsRange.condition {run : Run σ (Option Value)} (h : KeepsRange Γ run P) :
    Keeps (LocalsInRange Γ.locals) (Run.condition run) (fun _ => True)
      (Exit.InRange Γ.result) :=
  Keeps.condition h trivial fun _ _ _ => trivial

private theorem keepsRange_none : KeepsRange Γ (pure none : Run σ (Option Value)) P :=
  keeps_pure fun _ h => by cases h

private theorem keepsRange_some {v : Value} (h : P v) :
    KeepsRange Γ (pure (some v) : Run σ (Option Value)) P :=
  keeps_pure fun _ hx => by cases hx; exact h

private theorem keepsRange_throw {e : Exit} (h : e.InRange Γ.result) :
    KeepsRange Γ (throw e : Run σ (Option Value)) P :=
  keeps_throw h

/-- An operator keeps the locals in range, and its result is one that may come up. -/
private theorem keepsRange_operator {r : Except Trap Value} (h : ∀ v, r = .ok v → P v) :
    KeepsRange Γ (do let v ← Run.ofExcept r; pure (some v) : Run σ (Option Value)) P :=
  (keeps_ofExcept (Q := P) h fun _ _ => trivial).bind fun _ hv => keepsRange_some hv

/-- A local is overwritten by a value that it may hold. -/
private theorem keeps_setLocal_inRange {index : Nat} {v : Value} (h : Γ.MayHold index v) :
    Keeps (LocalsInRange Γ.locals) (Run.setLocal index v : Run σ Unit) (fun _ => True)
      (Exit.InRange Γ.result) := by
  refine keeps_setLocal (fun s old hs _ _ => ?_) (fun _ _ _ _ _ => trivial) fun _ _ _ => trivial
  exact forall₂_set hs h

mutual

/-- Code that respects its types yields only what it may yield, and keeps the locals in range. The
    induction is on the node. -/
theorem keeps_of_respects (hcall : CallsKeepRange call Γ) : (n : Node) → n.Respects Γ →
    KeepsRange Γ (evalNode call clock n) (n.MayYield Γ)
  | .nop, _ => by simp only [evalNode]; exact keepsRange_none
  | .unreachable, _ => by simp only [evalNode]; exact keepsRange_throw trivial
  | .const v, _ => by simp only [evalNode]; exact keepsRange_some rfl
  | .ret, _ => by simp only [evalNode]; exact keepsRange_throw trivial
  | .br label, _ => by simp only [evalNode]; exact keepsRange_throw trivial
  | .block none children, h => by
    simp only [evalNode]
    -- Before the first child there is no value yet.
    exact (keeps_of_allRespect hcall none children h).mono (fun v hv x hx =>
      (hv x hx).resolve_left fun hnone => by cases hnone.2) fun _ he => he
  | .block (some label) children, h => by
    simp only [evalNode]
    have hchildren : KeepsRange Γ (evalAll call clock none children) (LastMayYield Γ children) :=
      (keeps_of_allRespect hcall none children h).mono (fun v hv x hx =>
        (hv x hx).resolve_left fun hnone => by cases hnone.2) fun _ he => he
    exact hchildren.catching (fun _ hx => by cases hx) fun _ he _ => he
  | .loop label body, h => by
    have hspend : Keeps (LocalsInRange Γ.locals) (Run.spend : Run σ Unit) (fun _ => True)
        (Exit.InRange Γ.result) := keeps_spend (fun _ _ hs _ => hs) trivial
    simp only [evalNode]
    -- A loop yields what its last round yields.
    exact (keeps_of_respects hcall body h).repeating hspend trivial (fun _ he _ => he) clock
  | .ifThen _ c t, h => by
    obtain ⟨hc, ht⟩ := h
    simp only [evalNode]
    refine (keeps_of_respects hcall c hc).condition.bind fun b _ => Keeps.ite ?_ ?_
    · exact keeps_of_respects hcall t ht
    · exact keepsRange_none
  | .ifElse _ c t e, h => by
    obtain ⟨hc, ht, he⟩ := h
    simp only [evalNode]
    refine (keeps_of_respects hcall c hc).condition.bind fun b _ => Keeps.ite ?_ ?_
    · exact (keeps_of_respects hcall t ht).mono (fun v hv x hx => .inl (hv x hx)) fun _ he => he
    · exact (keeps_of_respects hcall e he).mono (fun v hv x hx => .inr (hv x hx)) fun _ he => he
  | .select c t e, h => by
    obtain ⟨hc, ht, he⟩ := h
    simp only [evalNode]
    refine (keeps_of_respects hcall t ht).value.bind fun v hv => ?_
    refine (keeps_of_respects hcall e he).value.bind fun w hw => ?_
    refine (keeps_of_respects hcall c hc).condition.bind fun b _ => keepsRange_some ?_
    cases b with
    | true => exact .inl hv
    | false => exact .inr hw
  | .brIf label c, h => by
    simp only [evalNode]
    refine (keeps_of_respects hcall c h).condition.bind fun b _ => Keeps.ite ?_ ?_
    · exact keepsRange_throw trivial
    · exact keepsRange_none
  | .brTable targets fallback index, h => by
    simp only [evalNode]
    refine (keeps_of_respects hcall index h).value.bind fun v _ => ?_
    exact (keeps_ofExcept (Q := fun _ => True) (fun _ _ => trivial) fun _ _ => trivial).bind
      fun _ _ => keepsRange_throw trivial
  | .retValue e, h => by
    obtain ⟨he, hresult⟩ := h
    simp only [evalNode]
    exact (keeps_of_respects hcall e he).value.bind fun v hv => keepsRange_throw (hresult v hv)
  | .drop e, h => by
    simp only [evalNode]
    exact (keeps_of_respects hcall e h).bind fun _ _ => keepsRange_none
  | .localGet index slot, _ => by
    simp only [evalNode]
    refine (keeps_getLocal (Q := Γ.MayHold index) (fun s v hs hv t ht => ?_)
      fun _ _ _ => trivial).bind fun v hv => keepsRange_some hv
    exact hs.getElem? ht hv
  | .localSet index e, h => by
    obtain ⟨he, hwrite⟩ := h
    simp only [evalNode]
    refine (keeps_of_respects hcall e he).value.bind fun v hv => ?_
    exact (keeps_setLocal_inRange (hwrite v hv)).bind fun _ _ => keepsRange_none
  | .localTee index _ e, h => by
    obtain ⟨he, hwrite⟩ := h
    simp only [evalNode]
    refine (keeps_of_respects hcall e he).value.bind fun v hv => ?_
    exact (keeps_setLocal_inRange (hwrite v hv)).bind fun _ _ => keepsRange_some hv
  | .unary op operand e, h => by
    simp only [evalNode]
    refine (keeps_of_respects hcall e h).value.bind fun v hv => ?_
    exact keepsRange_operator fun r hr => ⟨v, hv, hr⟩
  | .binary op operand l r, h => by
    obtain ⟨hl, hr⟩ := h
    simp only [evalNode]
    refine (keeps_of_respects hcall l hl).value.bind fun v hv => ?_
    refine (keeps_of_respects hcall r hr).value.bind fun w hw => ?_
    -- What the operator yields on these values is among what the node may yield.
    exact keepsRange_operator fun x hx => ⟨v, w, hv, hw, hx⟩
  | .convert c e, h => by
    simp only [evalNode]
    refine (keeps_of_respects hcall e h).value.bind fun v hv => ?_
    exact keepsRange_operator fun r hr => ⟨v, hv, hr⟩
  | .call id args _, h => by
    obtain ⟨hargs, params, result, hcallee, hpassed⟩ := h
    simp only [evalNode]
    refine (keeps_of_argsRespect hcall args params hargs hpassed).bind fun vs hvs => ?_
    -- The arguments may go where they are passed, so the callee answers in range.
    refine (hcall id params result vs hcallee hvs).mono (fun v hv x hx => ?_) fun _ he => he
    exact ⟨params, result, hcallee, hv x hx⟩
termination_by structural n => n

/-- Nodes that respect the types keep the locals in range one after the other, and the last of them
    yields the value. -/
private theorem keeps_of_allRespect (hcall : CallsKeepRange call Γ) (last : Option Value) :
    (ns : List Node) → AllRespect Γ ns → KeepsRange Γ (evalAll call clock last ns)
      (fun x => (ns = [] ∧ last = some x) ∨ LastMayYield Γ ns x)
  | [], _ => by
    rw [evalAll]
    exact keeps_pure fun x hx => .inl ⟨rfl, hx⟩
  | n :: ns, h => by
    obtain ⟨hn, hns⟩ := h
    simp only [evalAll]
    refine (keeps_of_respects hcall n hn).bind fun v hv => ?_
    refine (keeps_of_allRespect hcall v ns hns).mono (fun w hw x hx => ?_) fun _ he => he
    -- Either this node is the last one, or a later one decides.
    rcases hw x hx with ⟨hnil, hlast⟩ | hlast
    · exact .inr (.inl ⟨hnil, hv x hlast⟩)
    · exact .inr (.inr hlast)
termination_by structural ns => ns

/-- Arguments that are passed in range have values in range. -/
private theorem keeps_of_argsRespect (hcall : CallsKeepRange call Γ) : (ns : List Node) →
    (params : List Ty) → AllRespect Γ ns →
    List.Forall₂ (fun n t => ∀ v, Node.MayYield Γ n v → t.Contains v) ns params →
    Keeps (LocalsInRange Γ.locals) (evalArgs call clock ns) (List.Forall₂ Ty.Contains params)
      (Exit.InRange Γ.result)
  | [], _, _, .nil => by
    simp only [evalArgs]
    exact keeps_pure .nil
  | n :: ns, t :: ts, h, .cons hpassed hrest => by
    obtain ⟨hn, hns⟩ := h
    simp only [evalArgs]
    refine (keeps_of_respects hcall n hn).value.bind fun v hv => ?_
    refine (keeps_of_argsRespect hcall ns ts hns hrest).bind fun vs hvs => ?_
    exact keeps_pure (.cons (hpassed v hv) hvs)
termination_by structural ns => ns

end

end

/-! ## Modules -/

/-- The source types of a module: those of the parameters and the result of each callee, and those
    of the locals of each defined function, by their numbers. -/
structure ModuleTypes where
  signature? : Nat → Option (List Ty × Ty)
  locals : Nat → List Ty

/-- What the body of the function with a given number is to respect. -/
def ModuleTypes.ofFunction (P : ModuleTypes) (id : Nat) : SourceTypes where
  locals := P.locals id
  callee? := P.signature?
  result := match P.signature? id with
    | some (_, result) => result
    | none => .void

/-- A function respects its types: so do its body and what the body leaves, and its locals are its
    parameters and others that start at zero. -/
structure ModuleTypes.Describes (P : ModuleTypes) (id : Nat) (f : Function) : Prop where
  body : f.body.Respects (P.ofFunction id)
  result : ∀ v, f.body.MayYield (P.ofFunction id) v → (P.ofFunction id).result.Contains v
  locals : ∃ params result others, P.signature? id = some (params, result) ∧
    P.locals id = params ++ others ∧
    List.Forall₂ (fun t l => t.bounds? ≠ none → Local.slot l = .i32) others f.locals

/-- Every function of a module respects its types. -/
def ModuleTypes.DescribesAll (P : ModuleTypes) (m : Module) : Prop :=
  ∀ id f, m.callee? id = some (.defined f) → P.Describes id f

/-- Hosts answer in the range of the result of their import. -/
def Environment.HostsInRange (env : Environment σ) (P : ModuleTypes) : Prop :=
  ∀ id i host, env.module.callee? id = some (.imported i) → env.host? id = some host →
    ∀ params result, P.signature? id = some (params, result) →
      ∀ args w v w', host args w = .ok (some v) w' → result.Contains v

variable {P : ModuleTypes} {env : Environment σ} {clock : Nat}

/-- Zeros are in range. -/
private theorem zeros_inRange {others : List Ty} {locals : List Local} {zeros : List Value}
    (h : List.Forall₂ (fun t l => t.bounds? ≠ none → Local.slot l = .i32) others locals)
    (hzeros : locals.mapM (fun l => Value.zero? l.slot) = some zeros) :
    List.Forall₂ Ty.Contains others zeros := by
  induction h generalizing zeros with
  | nil =>
    cases hzeros
    exact .nil
  | cons hslot _ ih =>
    simp only [List.mapM_cons, bind, pure, Option.bind_eq_some_iff, Option.some.injEq] at hzeros
    obtain ⟨v, hv, vs, hvs, rfl⟩ := hzeros
    exact .cons (Ty.contains_zero hv hslot) (ih hvs)

/-- A function starts with its locals in range, if its arguments are. -/
private theorem ModuleTypes.Describes.frame {id : Nat} {f : Function} (h : P.Describes id f)
    {params : List Ty} {result : Ty} (hsig : P.signature? id = some (params, result))
    {args zeros : List Value} (hargs : List.Forall₂ Ty.Contains params args)
    (hzeros : f.locals.mapM (fun l => Value.zero? l.slot) = some zeros) {s : State σ}
    (hs : s.locals = args ++ zeros) : LocalsInRange (P.locals id) s := by
  obtain ⟨params', result', others, hsig', htypes, hothers⟩ := h.locals
  rw [hsig] at hsig'
  cases hsig'
  unfold LocalsInRange
  rw [htypes, hs]
  exact List.rel_append hargs (zeros_inRange hothers hzeros)

/-- The result of a function is the one it is called for. -/
theorem ModuleTypes.result_ofFunction {id : Nat} {params : List Ty} {result : Ty}
    (hsig : P.signature? id = some (params, result)) : (P.ofFunction id).result = result := by
  unfold ModuleTypes.ofFunction
  rw [hsig]

/-- A call keeps the ranges of the locals of its caller, and what it gives back is in range, if the
    bodies of defined functions keep the ranges of their own. -/
private theorem keeps_enter_inRange {run : Node → Run σ (Option Value)} {types : List Ty}
    {id : Nat} {params : List Ty} {result : Ty} {args : List Value} (hhosts : env.HostsInRange P)
    (hmodule : P.DescribesAll env.module) (hsig : P.signature? id = some (params, result))
    (hargs : List.Forall₂ Ty.Contains params args)
    (hbody : ∀ f, env.module.callee? id = some (.defined f) →
      KeepsRange (P.ofFunction id) (run f.body) (f.body.MayYield (P.ofFunction id))) :
    Keeps (LocalsInRange types) (env.enter run id args)
      (fun v => ∀ x, v = some x → result.Contains x) (fun e => e.isAbort) := by
  refine keeps_enter (keeps_spend (fun _ _ hs _ => hs) rfl) (fun _ => rfl) (fun _ _ _ => rfl)
    (fun _ _ _ _ _ _ => rfl) (fun _ _ _ => rfl) (fun i host hi hbound _ => ?_) fun f hf _ => ?_
  · refine keeps_runHost (fun _ _ hs => hs) (fun w v w' hok x hx => ?_) fun _ _ _ _ => rfl
    subst hx
    exact hhosts id i host hi hbound params result hsig args w x w' hok
  · have hf' := hmodule id f hf
    have hresult := ModuleTypes.result_ofFunction hsig
    refine keeps_runBody (hbody f hf) (fun s zeros _ hzeros => ?_) (fun s inner hs _ => hs)
      (fun _ x hx => by cases hx) (fun v hv _ x hx => ?_) (fun _ _ => rfl) (fun e he _ => he)
      rfl rfl
    · exact hf'.frame hsig hargs hzeros rfl
    · cases hx
      rw [← hresult]
      -- What the body leaves and what it returns with is in range.
      rcases hv with hleft | hreturned
      · exact hf'.result v (hleft v rfl)
      · exact hreturned

/-- Every call on arguments in range keeps the ranges of the locals of its caller, and what it gives
    back is in range. The induction is on the clock, which bounds the depth of the calls. -/
theorem call_keeps_range (hmodule : P.DescribesAll env.module) (hhosts : env.HostsInRange P)
    {types : List Ty} {id : Nat} {params : List Ty} {result : Ty} {args : List Value}
    (hsig : P.signature? id = some (params, result))
    (hargs : List.Forall₂ Ty.Contains params args) :
    Keeps (LocalsInRange types) (env.call clock id args)
      (fun v => ∀ x, v = some x → result.Contains x) (fun e => e.isAbort) := by
  -- The body makes its calls with one less on the clock, in the types of the callee.
  induction clock generalizing types id params result args with
  | zero =>
    refine keeps_enter_inRange hhosts hmodule hsig hargs fun f hf => ?_
    exact keepsRange_throw trivial
  | succ clock ih =>
    refine keeps_enter_inRange hhosts hmodule hsig hargs fun f hf => ?_
    refine keeps_of_respects (fun id params result args hcallee hargs => ?_) f.body
      (hmodule id f hf).body
    exact (ih hcallee hargs).mono (fun _ hv => hv) fun _ he => Exit.inRange_of_isAbort he

/-! ## Moments -/

/-- At the moment, the locals are in range, and the node that is run next respects its types. -/
structure Moment.InRange (P : ModuleTypes) (m : Moment σ) : Prop where
  node : m.node.Respects (P.ofFunction m.function)
  locals : LocalsInRange (P.locals m.function) m.state

/-- Calls keep the range whatever the clock is. -/
private theorem callsKeepRange (hmodule : P.DescribesAll env.module)
    (hhosts : env.HostsInRange P) (id k : Nat) :
    CallsKeepRange (env.call k) (P.ofFunction id) := by
  intro id' params result args hcallee hargs
  exact (call_keeps_range hmodule hhosts hcallee hargs).mono (fun _ hv => hv)
    fun _ he => Exit.inRange_of_isAbort he

/-- Whatever the function with the given number runs keeps the ranges of its locals. -/
theorem keepsRange_at (hmodule : P.DescribesAll env.module)
    (hhosts : env.HostsInRange P) (id k : Nat) {n : Node} (hn : n.Respects (P.ofFunction id)) :
    KeepsRange (P.ofFunction id) (evalNode (env.call k) k n) (n.MayYield (P.ofFunction id)) :=
  keeps_of_respects (callsKeepRange hmodule hhosts id k) n hn

/-- The body of a function starts in range, if it is called on arguments in range. -/
theorem Environment.Enters.inRange (hmodule : P.DescribesAll env.module) {id k : Nat}
    {params : List Ty} {result : Ty} {args : List Value} {s inner : State σ} {f : Function}
    (hsig : P.signature? id = some (params, result))
    (hargs : List.Forall₂ Ty.Contains params args) (h : env.Enters id args s f inner) :
    Moment.InRange P ⟨id, k, f.body, inner⟩ := by
  have hf := hmodule id f h.callee
  obtain ⟨spent, zeros, -, -, hzeros, rfl⟩ := h.frame
  exact ⟨hf.body, hf.frame hsig hargs hzeros rfl⟩

/-- From one moment to the next the locals stay in range. -/
theorem Moment.InRange.of_leads (hmodule : P.DescribesAll env.module)
    (hhosts : env.HostsInRange P) {m m' : Moment σ} (hm : m.InRange P) (h : env.Leads m m') :
    m'.InRange P := by
  obtain ⟨hnode, hlocals⟩ := hm
  cases h with
  | @operand id k n before o after s vs t hn hbefore =>
    -- All operands respect the types, those run before and the one that is next.
    have ho : ∀ o' ∈ before ++ o :: after, o'.Respects (P.ofFunction id) := by
      intro o' hmem
      rw [← hn] at hmem
      exact hnode.operand hmem
    have hkeeps : Keeps (LocalsInRange (P.locals id)) (evalArgs (env.call k) k before)
        (fun vs => vs.length = before.length) (Exit.InRange (P.ofFunction id).result) := by
      refine keeps_evalArgs trivial fun o' hmem => ?_
      have hkeep := keepsRange_at hmodule hhosts id k (ho o' (List.mem_append_left _ hmem))
      exact hkeep.mono (fun _ _ => trivial) fun _ he => he
    exact ⟨ho o (by simp), (hkeeps.of_ok hlocals hbefore).1⟩
  | @child id k label before n after s v t hbefore =>
    have hchildren := Node.respects_block.1 hnode
    have hrespect : AllRespect (P.ofFunction id) before :=
      allRespect_iff.2 fun n' hmem => hchildren n' (List.mem_append_left _ hmem)
    -- The children before it are run, and leave the locals in range.
    have hkeeps : KeepsRange (P.ofFunction id) (evalAll (env.call k) k none before) _ :=
      keeps_of_allRespect (callsKeepRange hmodule hhosts id k) none before hrespect
    exact ⟨hchildren n (by simp), (hkeeps.of_ok hlocals hbefore).1⟩
  | @ifThen id k r c n s t hc =>
    have hkeeps := (keepsRange_at hmodule hhosts id k hnode.1).condition
    exact ⟨hnode.2, (hkeeps.of_ok hlocals hc).1⟩
  | @ifTrue id k r c n e s t hc =>
    have hkeeps := (keepsRange_at hmodule hhosts id k hnode.1).condition
    exact ⟨hnode.2.1, (hkeeps.of_ok hlocals hc).1⟩
  | @ifFalse id k r c n e s t hc =>
    have hkeeps := (keepsRange_at hmodule hhosts id k hnode.1).condition
    exact ⟨hnode.2.2, (hkeeps.of_ok hlocals hc).1⟩
  | @round id k label body s t hround =>
    have hbody : body.Respects (P.ofFunction id) := hnode
    have hkeeps := keepsRange_at hmodule hhosts id k hbody
    have hspend : Keeps (LocalsInRange (P.locals id)) (Run.spend : Run σ Unit) (fun _ => True)
        (fun _ => True) := keeps_spend (fun _ _ hs _ => hs) trivial
    -- Each round before this one has left the locals in range.
    exact ⟨hnode, hround.invariant hkeeps hspend hlocals⟩
  | @call id k callee args r s vs t f inner hargs henter =>
    obtain ⟨hrespect, params, result, hcallee, hpassed⟩ := hnode
    have hkeeps : Keeps (LocalsInRange (P.locals id)) (evalArgs (env.call (k + 1)) (k + 1) args)
        (List.Forall₂ Ty.Contains params) _ :=
      keeps_of_argsRespect (callsKeepRange hmodule hhosts id (k + 1)) args params hrespect hpassed
    -- The callee starts with arguments of its types, and zeros for its own locals.
    exact henter.inRange hmodule hcallee (hkeeps.of_ok hlocals hargs).2

/-- So they do up to any later moment, by induction on the moments in between. -/
theorem Moment.InRange.of_reaches (hmodule : P.DescribesAll env.module)
    (hhosts : env.HostsInRange P) {m m' : Moment σ} (hm : m.InRange P) (h : env.Reaches m m') :
    m'.InRange P := by
  induction h with
  | refl => exact hm
  | tail _ hleads ih => exact ih.of_leads hmodule hhosts hleads

end Weir.Machine
