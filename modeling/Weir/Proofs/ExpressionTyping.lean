import Weir.Lowering.Expression
import Weir.Proofs.Typing

/-!
# Typing of compiled expressions

Code that is compiled from an expression lies in the slot of the type that it is compiled to,
inside any labels. This holds of every expression, erroneous ones included: what cannot be compiled
traps before its value is missed.

## Key results

- `coerce_typed`: a conversion leads from the slot of its source to the slot of its target
- `compile_typed`: compiled expressions are typed
- `compileCondition_typed`, `compileDiscarded_typed`: so are conditions, and expressions whose value
  is not used
-/

namespace Weir.Code

variable {Γ : TypeContext} {labels : List Label}

/-- A node that ends in a trap has every slot. -/
theorem Node.typed_absent {n : Node} {s t : Slot} (h : n.Typed Γ labels s) :
    (Lowering.absent n).Typed Γ labels t :=
  .sequence (.cons h (by simp) (.last .unreachable))

/-- A constant of 32 bits lies in its slot. -/
theorem Node.typed_i32Const {n : Int} : (Node.i32Const n).Typed Γ labels .i32 := .const

/-- A constant of 64 bits lies in its slot. -/
theorem Node.typed_i64Const {n : Int} : (Node.i64Const n).Typed Γ labels .i64 := .const

end Weir.Code

namespace Weir.Source.Ty

open Weir.Code

variable {w : PointerWidth} {t : Ty}

/-- No value has no slot. -/
theorem slot_of_isVoid (h : t.isVoid) : t.slot w = .none := by
  cases t <;> first | rfl | exact absurd h (by decide)

/-- A float lies in the slot of its format. -/
theorem slot_of_isFloat (h : t.isFloat) : t.slot w = t.floatSlot.slot := by
  cases t <;> first | rfl | exact absurd h (by decide)

/-- Any other value lies in the slot of an integer. -/
theorem slot_of_not_isFloat (hvoid : t.isVoid = false) (h : t.isFloat = false) :
    t.slot w = (t.intSlot w).slot := by
  cases t <;> first
    | rfl
    | exact absurd hvoid (by decide)
    | exact absurd h (by decide)
    | cases w <;> rfl

/-- The slot of a float is one for floats. -/
theorem isFloat_slot (h : t.isFloat) : (t.slot w).isFloat := by
  cases t <;> first | rfl | exact absurd h (by decide)

/-- The slot of any other value is one for integers. -/
theorem isInteger_slot (hvoid : t.isVoid = false) (h : t.isFloat = false) :
    (t.slot w).isInteger := by
  rw [slot_of_not_isFloat hvoid h]
  cases t.intSlot w <;> rfl

/-- Every value has a slot. -/
theorem slot_ne_none (h : t.isVoid = false) : t.slot w ≠ .none := by
  cases hf : t.isFloat with
  | true => intro hnone; have hs := isFloat_slot (w := w) hf; rw [hnone] at hs; cases hs
  | false => intro hnone; have hs := isInteger_slot (w := w) h hf; rw [hnone] at hs; cases hs

end Weir.Source.Ty

namespace Weir.Lowering

open Weir.Code (Node Slot Label TypeContext TypedArgs)
open Weir.Source (Expr Literal PointerWidth Span Ty)

variable {Γ : TypeContext} {labels : List Label} {w : PointerWidth}

/-! ## Conversions -/

/-- Bringing a value into the range of its type keeps its slot. -/
private theorem normalize_typed {n : Node} {t : Ty} (h : n.Typed Γ labels (t.slot w)) :
    (normalize n t).Typed Γ labels (t.slot w) := by
  cases t with
  | i8 | i16 => exact .convert h
  | u8 | u16 => exact .binary (o := .and) rfl h Node.typed_i32Const
  | bool => exact .binary (o := .ne) rfl h Node.typed_i32Const
  | _ => exact h

/-- A truth test lies in the slot of a truth value. -/
private theorem truthTest_typed {n : Node} {s : Slot} (h : n.Typed Γ labels s) :
    (truthTest n s).Typed Γ labels .i32 := by
  cases s with
  | none => exact Node.typed_absent h
  | i32 | i64 | f32 | f64 => exact .binary (o := .ne) rfl h .const

/-- Numbers of different fixed-width types are moved between the slots of their types. -/
private theorem changeSlot_typed {n : Node} {source target : Ty} (hne : source ≠ target)
    (hsource : source.isVoid = false) (htarget : target.isVoid = false)
    (h : n.Typed Γ labels (source.slot w)) :
    (changeSlot w n source target).Typed Γ labels (target.slot w) := by
  unfold changeSlot
  by_cases hs : source.isFloat <;> by_cases ht : target.isFloat
  -- Between floats only the two widths are converted into each other.
  · rw [if_pos (by simp [hs, ht])]
    cases source <;> cases hs <;> cases target <;> cases ht
    · exact absurd rfl hne
    · exact .convert (c := .promote) h
    · exact .convert (c := .demote) h
    · exact absurd rfl hne
  · have ht : target.isFloat = false := by simpa using ht
    rw [if_neg (by simp [ht]), if_neg (by simp [ht]), if_pos hs,
      Ty.slot_of_not_isFloat htarget ht]
    rw [Ty.slot_of_isFloat hs] at h
    exact .convert (c := .truncate _ _ _) h
  · have hs : source.isFloat = false := by simpa using hs
    rw [if_neg (by simp [hs]), if_pos ht, Ty.slot_of_isFloat ht]
    rw [Ty.slot_of_not_isFloat hsource hs] at h
    exact .convert (c := .convert _ _ _) h
  · have hs : source.isFloat = false := by simpa using hs
    have ht : target.isFloat = false := by simpa using ht
    rw [if_neg (by simp [hs]), if_neg (by simp [ht]), if_neg (by simp [hs]),
      Ty.slot_of_not_isFloat htarget ht]
    rw [Ty.slot_of_not_isFloat hsource hs] at h
    -- Integers change their slot only where the widths of their slots differ.
    cases hsi : source.intSlot w <;> cases hti : target.intSlot w <;> rw [hsi] at h
    · exact h
    · exact .convert (c := .extend _) h
    · exact .convert (c := .wrap) h
    · exact h

/-- A conversion between types of fixed width leads to the slot of its target. -/
private theorem coerceResolved_typed {n : Node} {source target : Ty}
    (h : n.Typed Γ labels (source.slot w)) :
    (coerceResolved w n source target).Typed Γ labels (target.slot w) := by
  unfold coerceResolved
  -- The cases are those of the conversion itself.
  by_cases heq : source = target
  · rw [if_pos heq, ← heq]
    exact h
  rw [if_neg heq]
  cases ht : target.isVoid with
  | true =>
    rw [if_pos rfl, Ty.slot_of_isVoid ht]
    exact .drop h
  | false =>
    cases hs : source.isVoid with
    | true =>
      rw [if_neg (by simp), if_pos rfl]
      exact Node.typed_absent h
    | false =>
      rw [if_neg (by simp), if_neg (by simp)]
      have hchanged := changeSlot_typed heq hs ht h
      by_cases hbool : target = .bool
      · rw [if_pos hbool, hbool]
        exact truthTest_typed h
      · rw [if_neg hbool]
        dsimp only
        split
        · exact normalize_typed hchanged
        · exact hchanged

/-- A conversion leads from the slot of its source to the slot of its target. -/
theorem coerce_typed {n : Node} {s t : Ty} (h : n.Typed Γ labels (s.slot w)) :
    (coerce w n s t).Typed Γ labels (t.slot w) := by
  rw [← Ty.slot_resolve w t]
  exact coerceResolved_typed ((Ty.slot_resolve w s).symm ▸ h)

/-! ## Literals and operators -/

/-- Compiled code lies in the slot of its type. -/
def Compiled.Typed (Γ : TypeContext) (labels : List Label) (w : PointerWidth) (c : Compiled) :
    Prop :=
  c.node.Typed Γ labels (c.ty.slot w)

/-- What could not be compiled traps, whatever type it is given. -/
private theorem poisoned_typed {expected : Ty} {problem : Problem} {span : Span} :
    (poisoned w expected problem span).value.Typed Γ labels w :=
  .unreachable

/-- The constant for a number of a type lies in the slot of the type. -/
private theorem slot_integerConstant {value : BitVec 64} {t : Ty}
    (h : literalFits value t) (hresolved : t.resolve w = t) :
    (integerConstant value t).slot = t.slot w := by
  cases t with
  | void | bool => exact absurd h (by simp [literalFits, Ty.isFloat])
  | usize => cases w <;> cases hresolved
  | _ => rfl

/-- A literal lies in the slot of its type. -/
private theorem compileLiteral_typed {literal : Literal} {expected : Ty} :
    (compileLiteral w literal expected).Typed Γ labels w := by
  cases literal with
  | boolean value => exact .const
  | float value =>
    unfold compileLiteral
    dsimp only
    split
    · exact .const
    · exact .const
  | int value =>
    by_cases hfits : literalFits value (expected.resolve w)
    · simp only [compileLiteral, if_pos hfits, Compiled.Typed]
      rw [← slot_integerConstant hfits (Ty.resolve_resolve w expected)]
      exact .const
    · simp only [compileLiteral, if_neg hfits]
      split
      · exact .const
      · exact .const

/-- The operator of code for a source operator accepts the slot of the type of its operands, and
    yields a truth value if the source operator compares and a number of their type if not. -/
private theorem accepts_of_operatorFor? {op : Source.BinaryOp} {t : Ty} {code : Code.BinaryOp}
    (hvoid : t.isVoid = false) (h : operatorFor? op t = some code) :
    code.accepts (t.slot w) ∧
      code.result (t.slot w) = if op.isComparison then .i32 else t.slot w := by
  have hnone := Ty.slot_ne_none (w := w) hvoid
  cases hf : t.isFloat with
  | true =>
    have hslot := Ty.isFloat_slot (w := w) hf
    cases op <;> simp only [operatorFor?, hf, if_true, reduceCtorEq, Option.some.injEq] at h <;>
      subst h <;> simp [Code.BinaryOp.accepts, Code.BinaryOp.result, Code.BinaryOp.isComparison,
        Source.BinaryOp.isComparison, hslot, hnone]
  | false =>
    have hslot := Ty.isInteger_slot (w := w) hvoid hf
    cases hsigned : t.isSigned <;> cases op <;>
      simp only [operatorFor?, hf, hsigned, if_true, if_false, reduceCtorEq, Bool.false_eq_true,
        Option.some.injEq] at h <;>
      subst h <;> simp [Code.BinaryOp.accepts, Code.BinaryOp.result, Code.BinaryOp.isComparison,
        Source.BinaryOp.isComparison, hslot, hnone]

/-! ## Operands -/

/-- An operand compiles to typed code for every type that is expected of it. -/
def Operand.Typed (Γ : TypeContext) (labels : List Label) (w : PointerWidth) (e : Operand) :
    Prop :=
  ∀ expected, (e.compile expected).value.Typed Γ labels w

section

variable {e left right : Operand} {expected : Ty} {span : Span}

/-- The truth test of an operand lies in the slot of a truth value. -/
private theorem Operand.Typed.condition (h : e.Typed Γ labels w) :
    (e.condition w).value.Typed Γ labels .i32 := by
  unfold Operand.condition
  rw [Reported.value_bind, convertExplicit_value]
  exact coerce_typed (t := .bool) (h .bool)

/-- A literal operand is compiled again, for another type. -/
private theorem Operand.retype_eq (e : Operand) (t common : Ty) :
    ∃ t', (e.retype (e.compile t).value common).value = (e.compile t').value := by
  unfold Operand.retype
  split
  · exact ⟨common, rfl⟩
  · exact ⟨t, rfl⟩

/-- A logical operator chooses between two truth values. -/
private theorem compileLogical_typed (isAnd : Bool) (hl : left.Typed Γ labels w)
    (hr : right.Typed Γ labels w) :
    (compileLogical w isAnd left right).value.Typed Γ labels w := by
  cases isAnd with
  | true => exact .ifElse hl.condition hr.condition Node.typed_i32Const
  | false => exact .ifElse hl.condition Node.typed_i32Const hr.condition

/-- A strict operator compiles to a trap, or to an operator of code on both operands, converted to
    the type that the operator works on. -/
theorem compileStrict_cases (w : PointerWidth) (op : Source.BinaryOp) (left right : Operand)
    (expected : Ty) (span : Span) :
    (∃ problem, (compileStrict w op left right expected span).value =
      (poisoned w expected problem span).value) ∨
    ∃ l r operand code, (∃ t, l = (left.compile t).value) ∧ (∃ t, r = (right.compile t).value) ∧
      operand.isVoid = false ∧ operatorFor? op operand = some code ∧
      (compileStrict w op left right expected span).value =
        let node := .binary code (operand.slot w) (coerce w l.node l.ty operand)
          (coerce w r.node r.ty operand)
        if op.isComparison then ⟨node, .bool⟩ else ⟨normalize node operand, operand⟩ := by
  unfold compileStrict
  dsimp only
  rw [Reported.value_bind, Reported.value_bind]
  generalize (if op.isComparison then Ty.void else expected) = hint
  generalize (if left.isLiteral then hint else (left.compile hint).value.ty) = hint'
  generalize unify w _ _ = common
  cases hvoid : common.isVoid with
  | true => exact .inl ⟨_, rfl⟩
  | false =>
    simp only [Bool.false_eq_true, if_false, Reported.value_bind]
    -- Literals are compiled again for the common type, other operands are kept.
    obtain ⟨tl, hl⟩ := left.retype_eq hint common
    obtain ⟨tr, hr⟩ := right.retype_eq hint' common
    -- Truth values are calculated with as integers.
    have hoperand : (if common = .bool && !op.isComparison then Ty.i32 else common).isVoid =
        false := by
      split
      · rfl
      · exact hvoid
    generalize (if common = .bool && !op.isComparison then Ty.i32 else common) = operand at *
    cases hcode : operatorFor? op operand with
    | none => exact .inl ⟨_, rfl⟩
    | some code =>
      refine .inr ⟨_, _, operand, code, ⟨tl, hl⟩, ⟨tr, hr⟩, hoperand, hcode, ?_⟩
      simp only [Reported.value_bind, convertImplicit_value]
      split <;> rfl

/-- A strict operator lies in the slot of its result. -/
private theorem compileStrict_typed {op : Source.BinaryOp} (hl : left.Typed Γ labels w)
    (hr : right.Typed Γ labels w) :
    (compileStrict w op left right expected span).value.Typed Γ labels w := by
  rcases compileStrict_cases w op left right expected span with
    ⟨problem, heq⟩ | ⟨l, r, operand, code, ⟨tl, rfl⟩, ⟨tr, rfl⟩, hvoid, hcode, heq⟩
  · rw [heq]
    exact poisoned_typed
  · obtain ⟨haccepts, hresult⟩ := accepts_of_operatorFor? (w := w) hvoid hcode
    have hnode := Node.Typed.binary haccepts (coerce_typed (hl tl)) (coerce_typed (hr tr))
    rw [heq]
    rw [hresult] at hnode
    dsimp only
    split
    next hcomparison =>
      rw [if_pos hcomparison] at hnode
      exact hnode
    next hcomparison =>
      rw [if_neg hcomparison] at hnode
      exact normalize_typed hnode

/-- A binary operator on typed operands is typed. -/
private theorem compileBinary_typed {op : Source.BinaryOp} (hl : left.Typed Γ labels w)
    (hr : right.Typed Γ labels w) :
    (compileBinary w op left right expected span).value.Typed Γ labels w := by
  cases op with
  | and => exact compileLogical_typed true hl hr
  | or => exact compileLogical_typed false hl hr
  | _ => exact compileStrict_typed hl hr

/-- The sign of a number is changed in its own slot. -/
private theorem compileMinus_typed {c : Compiled} (hc : c.Typed Γ labels w)
    (hint : (c.ty.resolve w).isInteger) :
    let t := c.ty.resolve w
    let zero : Node := match Code.Value.zero? (t.slot w) with
      | some zero => .const zero
      | none => .nop
    (normalize (.binary .sub (t.slot w) zero c.node) t).Typed Γ labels (t.slot w) := by
  have hc : c.node.Typed Γ labels ((c.ty.resolve w).slot w) := by
    rw [Ty.slot_resolve]
    exact hc
  generalize c.ty.resolve w = t at hc hint
  have hvoid : t.isVoid = false := by
    cases t <;> first | rfl | exact absurd hint (by decide)
  have hslot := Ty.slot_ne_none (w := w) hvoid
  refine normalize_typed (.binary (o := .sub) (by simpa [Code.BinaryOp.accepts]) ?_ hc)
  cases hs : t.slot w with
  | none => exact absurd hs hslot
  | i32 | i64 | f32 | f64 => exact .const

/-- The bits of an integer are flipped in its own slot. -/
private theorem compileBitNot_typed {c : Compiled} (hc : c.Typed Γ labels w)
    (hint : (c.ty.resolve w).isInteger) :
    let t := c.ty.resolve w
    (normalize (.binary .xor (t.slot w) c.node
      (if t.slot w = .i64 then .i64Const (-1) else .i32Const (-1))) t).Typed Γ labels
      (t.slot w) := by
  have hc : c.node.Typed Γ labels ((c.ty.resolve w).slot w) := by
    rw [Ty.slot_resolve]
    exact hc
  generalize c.ty.resolve w = t at hc hint
  -- Only the slot of `usize` depends on the width.
  have hslot : t.slot w = .i32 ∨ t.slot w = .i64 := by
    cases t <;> first
      | exact .inl rfl
      | exact .inr rfl
      | exact absurd hint (by decide)
      | (cases w; exact .inl rfl; exact .inr rfl)
  refine normalize_typed (.binary (o := .xor) ?_ hc ?_)
  · rcases hslot with hs | hs <;> rw [hs] <;> rfl
  · rcases hslot with hs | hs <;> rw [hs]
    · exact Node.typed_i32Const
    · exact Node.typed_i64Const

/-- A unary operator on a typed operand is typed. -/
private theorem compileUnary_typed {op : Source.UnaryOp} {literal? : Option Literal}
    (h : e.Typed Γ labels w) :
    (compileUnary w op e literal? expected span).value.Typed Γ labels w := by
  cases op with
  | plus => exact h expected
  | not => exact .unary (o := .eqz) rfl h.condition
  | bitNot =>
    simp only [compileUnary, Reported.value_bind]
    split
    next hint => exact compileBitNot_typed (h expected) hint
    next => exact poisoned_typed
  | minus =>
    have hsign : (compileUnary w .minus e none expected span).value.Typed Γ labels w := by
      simp only [compileUnary, Reported.value_bind]
      split
      next hfloat =>
        refine .unary (o := .neg) (Ty.isFloat_slot hfloat) ?_
        rw [Ty.slot_resolve]
        exact h expected
      next =>
        split
        next hint => exact compileMinus_typed (h expected) hint
        next => exact poisoned_typed
    -- A minus sign in front of a number belongs to the literal.
    cases literal? with
    | none => exact hsign
    | some literal =>
      cases literal with
      | int value => exact compileLiteral_typed
      | float value => exact compileLiteral_typed
      | boolean value => exact hsign

end

/-! ## Expressions -/

/-- The context of typing has a local for each variable that can be named, and a callee for each
    callable, in the slots of their types. -/
structure Context.Fits (ctx : Context) (Γ : TypeContext) : Prop where
  bindings : ∀ name v, ctx.bindings.find? name = some v →
    Γ.locals[v.index]? = some (v.ty.slot ctx.width)
  callables : ∀ name s, ctx.functions.find? name = some s →
    Γ.callee? s.id = some (s.params.map (·.slot ctx.width), s.result.slot ctx.width)

variable {ctx : Context}

/-- An assignment that compiles has a variable; its new value is the one on the right, or that of an
    operator on both sides, converted to the type of the variable. -/
theorem compileUpdate_eq_some {op : Source.AssignOp} {target : Source.Ident} {value : Operand}
    {span : Span} {v : Variable} {n : Node}
    (h : (compileUpdate ctx op target value span).value = some (v, n)) :
    ctx.bindings.find? target.name = some v ∧
      ∃ c, n = coerce ctx.width c.node c.ty v.ty ∧ (c = (value.compile v.ty).value ∨
        ∃ op current, current.compile = (fun _ => pure (readVariable ctx.width v)) ∧
          c = (compileBinary ctx.width op current value v.ty span).value) := by
  unfold compileUpdate at h
  cases hfind : ctx.bindings.find? target.name with
  | none =>
    simp only [hfind] at h
    cases h
  | some v' =>
    simp only [hfind] at h
    cases hop : op.operator? with
    | none =>
      have heq : (v', coerce ctx.width (value.compile v'.ty).value.node
          (value.compile v'.ty).value.ty v'.ty) = (v, n) := by
        rw [← convertImplicit_value _ _ _ _ value.span]
        simp only [hop] at h
        split at h <;> exact Option.some.inj h
      cases heq
      exact ⟨rfl, _, rfl, .inl rfl⟩
    | some op' =>
      -- The variable itself is the left operand.
      let current : Operand := ⟨fun _ => pure (readVariable ctx.width v'), false, target.span⟩
      let c := (compileBinary ctx.width op' current value v'.ty span).value
      have heq : (v', coerce ctx.width c.node c.ty v'.ty) = (v, n) := by
        rw [← convertImplicit_value _ _ _ _ value.span]
        simp only [hop] at h
        split at h <;> exact Option.some.inj h
      cases heq
      exact ⟨rfl, _, rfl, .inr ⟨op', current, rfl, rfl⟩⟩

/-- An assignment writes a value of the type of its variable. -/
private theorem compileUpdate_typed (hctx : ctx.Fits Γ) {op : Source.AssignOp}
    {target : Source.Ident}
    {value : Operand} {span : Span} (hvalue : value.Typed Γ labels ctx.width) {v : Variable}
    {n : Node} (h : (compileUpdate ctx op target value span).value = some (v, n)) :
    Γ.locals[v.index]? = some (v.ty.slot ctx.width) ∧
      n.Typed Γ labels (v.ty.slot ctx.width) := by
  obtain ⟨hfind, c, rfl, hc⟩ := compileUpdate_eq_some h
  have hlocal := hctx.bindings _ _ hfind
  refine ⟨hlocal, coerce_typed ?_⟩
  rcases hc with rfl | ⟨op, current, hcurrent, rfl⟩
  · exact hvalue v.ty
  · refine compileBinary_typed (fun expected => ?_) hvalue
    rw [hcurrent]
    exact .localGet hlocal

mutual

/-- Compiled code is typed, whatever type is expected of it. The induction is on the expression, so
    that the operands of an operator are typed whatever type they are compiled for. -/
theorem compile_typed (hctx : ctx.Fits Γ) :
    (e : Expr) → (expected : Ty) → (compile ctx e expected).value.Typed Γ labels ctx.width
  | .literal _ value, expected => by
    simp only [compile]
    exact compileLiteral_typed
  | .paren _ inner, expected => by
    simp only [compile]
    exact compile_typed hctx inner expected
  | .name span name, expected => by
    simp only [compile]
    split
    next v hfind => exact .localGet (hctx.bindings _ _ hfind)
    next => exact poisoned_typed
  | .unary span op operand, expected => by
    simp only [compile]
    exact compileUnary_typed fun t => compile_typed hctx operand t
  | .binary span op left right, expected => by
    simp only [compile]
    exact compileBinary_typed (fun t => compile_typed hctx left t)
      fun t => compile_typed hctx right t
  -- The value of an assignment lies in the slot of the variable.
  | .assign span op target value, expected => by
    simp only [compile, Reported.value_bind]
    split
    next => exact .unreachable
    next v n h =>
      obtain ⟨hlocal, hn⟩ := compileUpdate_typed hctx (fun t => compile_typed hctx value t) h
      exact .localTee hlocal hn
  | .call span callee args, expected => by
    simp only [compile]
    split
    next => exact poisoned_typed
    next s hfind =>
      split
      next => exact poisoned_typed
      next hlen =>
        have hlen : s.params.length = args.length := by simpa using hlen
        exact .call (hctx.callables _ _ hfind) (compileArgs_typed hctx args s.params hlen)
  | .cast _ operand t, expected => by
    simp only [compile, Reported.value_bind, convertExplicit_value]
    exact coerce_typed (compile_typed hctx operand t)
termination_by structural e => e

/-- As many arguments as parameters are typed at the slots of the parameters. -/
private theorem compileArgs_typed (hctx : ctx.Fits Γ) : (args : List Expr) → (params : List Ty) →
    params.length = args.length → TypedArgs Γ labels (compileArgs ctx args params).value
      (params.map (·.slot ctx.width))
  | [], [], _ => .nil
  | arg :: args, t :: ts, hlen => by
    simp only [compileArgs, Reported.value_bind, convertImplicit_value]
    exact .cons (coerce_typed (compile_typed hctx arg t))
      (compileArgs_typed hctx args ts (by simpa using hlen))
termination_by structural args => args

end

/-- A compiled condition is a truth value. -/
theorem compileCondition_typed (hctx : ctx.Fits Γ) (e : Expr) :
    (compileCondition ctx e).value.Typed Γ labels .i32 :=
  Operand.Typed.condition fun t => compile_typed hctx e t

/-- A value that is not used is dropped, if it is there. -/
theorem compileDropped_typed (hctx : ctx.Fits Γ) (e : Expr) (expected : Ty) :
    let c := (compile ctx e expected).value
    Node.Typed Γ labels (if c.ty.isVoid then c.node else .drop c.node) .none := by
  have hc : (compile ctx e expected).value.Typed Γ labels ctx.width :=
    compile_typed hctx e expected
  dsimp only
  split
  next hvoid => exact Ty.slot_of_isVoid (w := ctx.width) hvoid ▸ hc
  next => exact .drop hc

/-- Compiled code whose value is not used yields none. -/
theorem compileDiscarded_typed (hctx : ctx.Fits Γ) :
    (e : Expr) → (compileDiscarded ctx e).value.Typed Γ labels .none
  | .paren _ inner => by
    simp only [compileDiscarded]
    exact compileDiscarded_typed hctx inner
  | .assign span op target value => by
    simp only [compileDiscarded, Reported.value_bind]
    split
    next => exact .unreachable
    next v n h =>
      obtain ⟨hlocal, hn⟩ := compileUpdate_typed hctx (fun t => compile_typed hctx value t) h
      exact .localSet hlocal hn
  | .literal .. | .name .. | .unary .. | .binary .. | .call .. | .cast .. => by
    simp only [compileDiscarded]
    exact compileDropped_typed hctx _ _

end Weir.Lowering
