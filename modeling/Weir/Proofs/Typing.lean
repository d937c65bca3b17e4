import Weir.Machine.Arithmetic
import Weir.Proofs.Scoping

/-!
# Typing

`Node.Typed` gives nodes the slots that they yield values of. A node after which control never
goes on has every slot. The relation takes the discipline of labels along, so that typed code is
well scoped too.

## Key results

- `Node.Typed.scoped`: typed code is well scoped
- `UnaryOp.eval_of_slot`, `BinaryOp.eval_of_slot`, `Conversion.eval_of_slot`: operators on operands
  of the slots that they ask for
- `Node.Typed.of_isTerminator`: a node that control never passes has every slot
-/

namespace Weir.Code

open Weir.Machine (Trap)

/-- What code is typed against: the slots of the locals of its function, the parameters and results
    of callees, and the result of the function. -/
structure TypeContext where
  locals : List Slot
  callee? : Nat → Option (List Slot × Slot)
  result : Slot

/-- What the body of a function is typed against within its module. -/
def Module.typeContext (m : Module) (f : Function) : TypeContext where
  locals := f.paramSlots ++ f.locals.map Local.slot
  callee? id := (m.callee? id).map fun c => (c.params, c.result)
  result := f.result

/-- Whether an operator is defined on operands of the given slot. -/
def UnaryOp.accepts (op : UnaryOp) (operand : Slot) : Bool :=
  match op with
  | eqz => operand.isInteger
  | neg => operand.isFloat

mutual

/-- A node yields a value of the given slot, or none, inside the given labels. -/
inductive Node.Typed (Γ : TypeContext) : List Label → Node → Slot → Prop
  | nop {labels} : Node.Typed Γ labels .nop .none
  | unreachable {labels s} : Node.Typed Γ labels .unreachable s
  | sequence {labels children s} (h : TypedAll Γ labels children s) :
      Node.Typed Γ labels (.block none children) s
  | block {labels label children} (hfresh : label ∉ labels)
      (h : TypedAll Γ (label :: labels) children .none) :
      Node.Typed Γ labels (.block (some label) children) .none
  | loop {labels label body s} (hfresh : label ∉ labels)
      (h : Node.Typed Γ (label :: labels) body s) : Node.Typed Γ labels (.loop label body) s
  | ifThen {labels c t} (hc : Node.Typed Γ labels c .i32) (ht : Node.Typed Γ labels t .none) :
      Node.Typed Γ labels (.ifThen .none c t) .none
  | ifElse {labels c t e s} (hc : Node.Typed Γ labels c .i32) (ht : Node.Typed Γ labels t s)
      (he : Node.Typed Γ labels e s) : Node.Typed Γ labels (.ifElse s c t e) s
  | select {labels c t e s} (ht : Node.Typed Γ labels t s) (he : Node.Typed Γ labels e s)
      (hc : Node.Typed Γ labels c .i32) : Node.Typed Γ labels (.select c t e) s
  | br {labels label s} (hbound : label ∈ labels) : Node.Typed Γ labels (.br label) s
  | brIf {labels label c} (hbound : label ∈ labels) (hc : Node.Typed Γ labels c .i32) :
      Node.Typed Γ labels (.brIf label c) .none
  | brTable {labels targets fallback index s} (hbound : ∀ l ∈ targets, l ∈ labels)
      (hfallback : fallback ∈ labels) (h : Node.Typed Γ labels index .i32) :
      Node.Typed Γ labels (.brTable targets fallback index) s
  | ret {labels s} (hvoid : Γ.result = .none) : Node.Typed Γ labels .ret s
  | retValue {labels e s} (h : Node.Typed Γ labels e Γ.result) : Node.Typed Γ labels (.retValue e) s
  | drop {labels e s} (h : Node.Typed Γ labels e s) : Node.Typed Γ labels (.drop e) .none
  | const {labels v} : Node.Typed Γ labels (.const v) v.slot
  | localGet {labels index s} (hlocal : Γ.locals[index]? = some s) :
      Node.Typed Γ labels (.localGet index s) s
  | localSet {labels index e s} (hlocal : Γ.locals[index]? = some s) (h : Node.Typed Γ labels e s) :
      Node.Typed Γ labels (.localSet index e) .none
  | localTee {labels index e s} (hlocal : Γ.locals[index]? = some s) (h : Node.Typed Γ labels e s) :
      Node.Typed Γ labels (.localTee index s e) s
  | unary {labels o operand e} (haccepts : o.accepts operand) (h : Node.Typed Γ labels e operand) :
      Node.Typed Γ labels (.unary o operand e) (o.result operand)
  | binary {labels o operand l r} (haccepts : o.accepts operand)
      (hl : Node.Typed Γ labels l operand) (hr : Node.Typed Γ labels r operand) :
      Node.Typed Γ labels (.binary o operand l r) (o.result operand)
  | convert {labels c e} (h : Node.Typed Γ labels e c.operand) :
      Node.Typed Γ labels (.convert c e) c.result
  | call {labels id args params result} (hcallee : Γ.callee? id = some (params, result))
      (h : TypedArgs Γ labels args params) : Node.Typed Γ labels (.call id args result) result

/-- Nodes one after the other yield what the last of them yields. -/
inductive TypedAll (Γ : TypeContext) : List Label → List Node → Slot → Prop
  | nil {labels} : TypedAll Γ labels [] .none
  | last {labels n s} (h : Node.Typed Γ labels n s) : TypedAll Γ labels [n] s
  | cons {labels n ns s t} (hn : Node.Typed Γ labels n t) (hne : ns ≠ [])
      (h : TypedAll Γ labels ns s) : TypedAll Γ labels (n :: ns) s

/-- Arguments yield values of the slots of the parameters. -/
inductive TypedArgs (Γ : TypeContext) : List Label → List Node → List Slot → Prop
  | nil {labels} : TypedArgs Γ labels [] []
  | cons {labels n ns s ss} (hn : Node.Typed Γ labels n s) (h : TypedArgs Γ labels ns ss) :
      TypedArgs Γ labels (n :: ns) (s :: ss)

end

/-- Every function body of the module yields the result of its function. -/
def Module.Typed (m : Module) : Prop :=
  ∀ f ∈ m.functions, f.body.Typed (m.typeContext f) [] f.result

variable {Γ : TypeContext} {labels : List Label}

private theorem TypedArgs.length_eq {ns : List Node} {ss : List Slot}
    (h : TypedArgs Γ labels ns ss) :
    ns.length = ss.length := by
  induction ns generalizing ss with
  | nil => cases h; rfl
  | cons n ns ih =>
    -- The first operand is typed with the first slot.
    cases h with
    | cons _ h => simp [ih h]

/-- Nodes that yield nothing come before any node. -/
theorem TypedAll.concat {ns : List Node} {n : Node} {s : Slot}
    (h : ∀ m ∈ ns, m.Typed Γ labels .none) (hn : n.Typed Γ labels s) :
    TypedAll Γ labels (ns ++ [n]) s := by
  induction ns with
  | nil => exact .last hn
  | cons m ns ih =>
    obtain ⟨hm, hns⟩ := List.forall_mem_cons.1 h
    exact .cons hm (by simp) (ih hns)

/-- Nodes that yield nothing do so one after the other. -/
theorem TypedAll.of_forall {ns : List Node} (h : ∀ n ∈ ns, n.Typed Γ labels .none) :
    TypedAll Γ labels ns .none := by
  rcases List.eq_nil_or_concat ns with rfl | ⟨ns, n, rfl⟩
  · exact .nil
  · rw [List.concat_eq_append] at h ⊢
    exact .concat (fun m hm => h m (List.mem_append_left _ hm)) (h n (by simp))

/-- A node that control never passes has every slot. -/
theorem Node.Typed.of_isTerminator {n : Node} {s t : Slot} (h : n.Typed Γ labels s)
    (hn : n.isTerminator) : n.Typed Γ labels t := by
  cases h with
  | unreachable => exact .unreachable
  | br hbound => exact .br hbound
  | brTable hbound hfallback hindex => exact .brTable hbound hfallback hindex
  | ret hvoid => exact .ret hvoid
  | retValue he => exact .retValue he
  | _ => cases hn

/-! ## Operators on operands of their slots -/

/-- An operator on an operand that it accepts has a result in the slot that it announces. -/
theorem UnaryOp.eval_of_slot {op : UnaryOp} {v : Value} (h : op.accepts v.slot) :
    ∃ r, op.eval v = .ok r ∧ r.slot = op.result v.slot := by
  cases op <;> cases v <;> first
    | exact ⟨_, rfl, rfl⟩
    | exact absurd h (by simp [UnaryOp.accepts, Value.slot, Slot.isInteger, Slot.isFloat])

/-- On integers an accepted operator has a result of its slot, or it is a division that traps. -/
private theorem BinaryOp.onInts_of_accepts {w : Nat} (inject : BitVec w → Value) (s : Slot)
    (hinject : ∀ b, (inject b).slot = s) (hs : s.isInteger) {op : BinaryOp} (h : op.accepts s)
    (a b : BitVec w) :
    (∃ r, op.onInts inject a b = .ok r ∧ r.slot = op.result s) ∨
      op.onInts inject a b = .error .integerDivideByZero ∨
        op.onInts inject a b = .error .integerOverflow := by
  have hfloat : s.isFloat = false := by cases s <;> first | rfl | exact absurd hs (by decide)
  -- The operators of floating-point numbers are not accepted, and only division can trap.
  cases op
  case div | lt | le | gt | ge => simp [BinaryOp.accepts, hfloat] at h
  -- Only signed division can overflow.
  case divS =>
    simp only [BinaryOp.onInts]
    split
    · exact .inr (.inl rfl)
    · split
      · exact .inr (.inr rfl)
      · exact .inl ⟨_, rfl, hinject _⟩
  case divU | remS | remU =>
    simp only [BinaryOp.onInts]
    split
    · exact .inr (.inl rfl)
    · exact .inl ⟨_, rfl, hinject _⟩
  case add | sub | mul | and | or | xor | shl | shrS | shrU => exact .inl ⟨_, rfl, hinject _⟩
  all_goals exact .inl ⟨_, rfl, rfl⟩

/-- On floats an accepted operator always has a result of its slot. -/
private theorem BinaryOp.onFloats_of_accepts {f : Format} (inject : Binary f → Value) (s : Slot)
    (hinject : ∀ x, (inject x).slot = s) (hs : s.isFloat) {op : BinaryOp} (h : op.accepts s)
    (x y : Binary f) : ∃ r, op.onFloats inject x y = .ok r ∧ r.slot = op.result s := by
  have hint : s.isInteger = false := by cases s <;> first | rfl | exact absurd hs (by decide)
  -- Arithmetic yields a number again, and comparisons yield a truth value.
  cases op
  case add | sub | mul | div => exact ⟨_, rfl, hinject _⟩
  case eq | ne | lt | le | gt | ge => exact ⟨_, rfl, rfl⟩
  all_goals simp [BinaryOp.accepts, hint] at h

/-- An operator on two operands of one slot that it accepts has a result in the slot that it
    announces, unless a division traps. -/
theorem BinaryOp.eval_of_slot {op : BinaryOp} {v w : Value} (h : op.accepts v.slot)
    (hw : w.slot = v.slot) :
    (∃ r, op.eval v w = .ok r ∧ r.slot = op.result v.slot) ∨
      op.eval v w = .error .integerDivideByZero ∨ op.eval v w = .error .integerOverflow := by
  match v, w, hw, h with
  | .i32 a, .i32 b, _, h => exact BinaryOp.onInts_of_accepts .i32 .i32 (fun _ => rfl) rfl h a b
  | .i64 a, .i64 b, _, h => exact BinaryOp.onInts_of_accepts .i64 .i64 (fun _ => rfl) rfl h a b
  | .f32 x, .f32 y, _, h =>
    exact .inl (BinaryOp.onFloats_of_accepts .f32 .f32 (fun _ => rfl) rfl h x y)
  | .f64 x, .f64 y, _, h =>
    exact .inl (BinaryOp.onFloats_of_accepts .f64 .f64 (fun _ => rfl) rfl h x y)

/-- A conversion of an operand of its slot has a result in its other slot. -/
theorem Conversion.eval_of_slot {c : Conversion} {v : Value} (h : v.slot = c.operand) :
    ∃ r, c.eval v = .ok r ∧ r.slot = c.result := by
  cases c with
  | wrap | extend8 | extend16 | demote | promote =>
    cases v <;> first
      | exact ⟨_, rfl, rfl⟩
      | exact absurd h (by simp [Value.slot, Conversion.operand])
  | extend signed =>
    cases signed <;> cases v <;> first
      | exact ⟨_, rfl, rfl⟩
      | exact absurd h (by simp [Value.slot, Conversion.operand])
  -- Every pair of slots has its own instruction, for a value of the source only.
  | truncate target source signed =>
    cases target <;> cases source <;> cases v <;> first
      | exact ⟨_, rfl, rfl⟩
      | exact absurd h (by simp [Value.slot, Conversion.operand, FloatSlot.slot])
  | convert target source signed =>
    cases target <;> cases source <;> cases v <;> first
      | exact ⟨_, rfl, rfl⟩
      | exact absurd h (by simp [Value.slot, Conversion.operand, IntSlot.slot])

/-! ## Typed code is well scoped -/

/-- The surroundings declare the locals and callees that the context types. -/
structure TypeContext.Within (Γ : TypeContext) (s : Surroundings) : Prop where
  locals : Γ.locals.length = s.localCount
  callees : ∀ id params result, Γ.callee? id = some (params, result) →
    s.Reaches id params.length

private theorem TypeContext.Within.lt_localCount {s : Surroundings} {index : Nat} {slot : Slot}
    (hs : Γ.Within s) (h : Γ.locals[index]? = some slot) : index < s.localCount :=
  hs.locals ▸ (List.getElem?_eq_some_iff.1 h).1

/-- What the code of a module is typed with is what it is checked with. -/
theorem Module.typeContext_within (m : Module) (f : Function) :
    (m.typeContext f).Within (m.surroundings f) where
  locals := by
    simp [Module.typeContext, Module.surroundings, Function.paramSlots, Function.localCount]
  callees := by
    intro id params result h m' hm
    cases hm
    -- A callee that is typed is one of the module's.
    obtain ⟨c, hc, heq⟩ := Option.map_eq_some_iff.1 h
    cases heq
    exact ⟨c, hc, rfl⟩

mutual

/-- Typed code is well scoped. -/
theorem Node.Typed.scoped {s : Surroundings} (hs : Γ.Within s) {labels : List Label} {t : Slot} :
    (n : Node) → n.Typed Γ labels t → n.Scoped s labels
  | .nop, _ => .nop
  | .unreachable, _ => .unreachable
  | .block none children, .sequence h => .sequence (TypedAll.scoped hs children h)
  | .block (some _) children, .block hfresh h => .block hfresh (TypedAll.scoped hs children h)
  | .loop _ body, .loop hfresh h => .loop hfresh (Node.Typed.scoped hs body h)
  | .ifThen _ c t, .ifThen hc ht =>
    .ifThen (Node.Typed.scoped hs c hc) (Node.Typed.scoped hs t ht)
  | .ifElse _ c t e, .ifElse hc ht he =>
    .ifElse (Node.Typed.scoped hs c hc) (Node.Typed.scoped hs t ht) (Node.Typed.scoped hs e he)
  | .select c t e, .select ht he hc =>
    .select (Node.Typed.scoped hs t ht) (Node.Typed.scoped hs e he) (Node.Typed.scoped hs c hc)
  | .br _, .br hbound => .br hbound
  | .brIf _ c, .brIf hbound hc => .brIf hbound (Node.Typed.scoped hs c hc)
  | .brTable _ _ index, .brTable hbound hfallback h =>
    .brTable hbound hfallback (Node.Typed.scoped hs index h)
  | .ret, _ => .ret
  | .retValue e, .retValue h => .retValue (Node.Typed.scoped hs e h)
  | .drop e, .drop h => .drop (Node.Typed.scoped hs e h)
  | .const _, _ => .const
  | .localGet _ _, .localGet hlocal => .localGet (hs.lt_localCount hlocal)
  | .localSet _ e, .localSet hlocal h =>
    .localSet (hs.lt_localCount hlocal) (Node.Typed.scoped hs e h)
  | .localTee _ _ e, .localTee hlocal h =>
    .localTee (hs.lt_localCount hlocal) (Node.Typed.scoped hs e h)
  | .unary _ _ e, .unary _ h => .unary (Node.Typed.scoped hs e h)
  | .binary _ _ l r, .binary _ hl hr =>
    .binary (Node.Typed.scoped hs l hl) (Node.Typed.scoped hs r hr)
  | .convert _ e, .convert h => .convert (Node.Typed.scoped hs e h)
  | .call _ args _, .call hcallee h =>
    .call (h.length_eq ▸ hs.callees _ _ _ hcallee) (TypedArgs.scoped hs args h)
termination_by structural n => n

private theorem TypedAll.scoped {s : Surroundings} (hs : Γ.Within s) {labels : List Label}
    {t : Slot} :
    (ns : List Node) → TypedAll Γ labels ns t → ∀ n ∈ ns, n.Scoped s labels
  | [], _ => by simp
  | n :: ns, h => by
    refine List.forall_mem_cons.2 ?_
    cases h with
    | last hn => exact ⟨Node.Typed.scoped hs n hn, by simp⟩
    | cons hn _ hns => exact ⟨Node.Typed.scoped hs n hn, TypedAll.scoped hs ns hns⟩
termination_by structural ns => ns

private theorem TypedArgs.scoped {s : Surroundings} (hs : Γ.Within s) {labels : List Label}
    {params : List Slot} :
    (ns : List Node) → TypedArgs Γ labels ns params → ∀ n ∈ ns, n.Scoped s labels
  | [], _ => by simp
  | n :: ns, .cons hn hns =>
    List.forall_mem_cons.2 ⟨Node.Typed.scoped hs n hn, TypedArgs.scoped hs ns hns⟩
termination_by structural ns => ns

end

end Weir.Code
