import Weir.Proofs.ExpressionTyping
import Weir.Proofs.LowerStep

/-!
# Shapes of compiled expressions

Expressions are compiled to a few kinds of node: constants, reads and writes of variables in scope,
operators, conversions, choices and calls. A property that passes from the parts of such nodes to
the nodes themselves is one of all code that is compiled from expressions, whatever the property is
about, and whether or not problems are reported.

## Key results

- `Expressive`: the properties of which this is true
- `Expressive.coerce`: conversions
- `Expressive.compile`, `Expressive.compileDiscriminant`, `Expressive.compileGuard`: expressions
-/

namespace Weir.Lowering

open Weir.Code (Node Slot Value)
open Weir.Source (Expr Literal PointerWidth Span Ty)

/-- A property that passes from the parts of nodes to the nodes, for those nodes that expressions
    are compiled to. Only some locals are written. -/
structure Expressive (written : Nat → Prop) (P : Node → Prop) : Prop where
  nop : P .nop
  unreachable : P .unreachable
  const : ∀ v, P (.const v)
  localGet : ∀ index slot, P (.localGet index slot)
  localTee : ∀ index slot e, written index → P e → P (.localTee index slot e)
  unary : ∀ op slot e, P e → P (.unary op slot e)
  binary : ∀ op slot l r, P l → P r → P (.binary op slot l r)
  convert : ∀ c e, P e → P (.convert c e)
  drop : ∀ e, P e → P (.drop e)
  absent : ∀ e, P e → P (absent e)
  ifElse : ∀ slot c t e, P c → P t → P e → P (.ifElse slot c t e)
  call : ∀ callee args slot, (∀ a ∈ args, P a) → P (.call callee args slot)

/-- The local is that of a variable that can be named. -/
def Context.Names (ctx : Context) (index : Nat) : Prop :=
  ∃ name v, ctx.bindings.find? name = some v ∧ v.index = index

namespace Expressive

variable {written : Nat → Prop} {P : Node → Prop} {w : PointerWidth}

/-! ## Conversions -/

/-- A value is brought into the range of a type by a conversion or by a mask. -/
private theorem normalize (h : Expressive written P) {n : Node} (t : Ty) (hn : P n) :
    P (normalize n t) := by
  cases t with
  | i8 | i16 => exact h.convert _ _ hn
  | u8 | u16 | bool => exact h.binary _ _ _ _ hn (h.const _)
  | void | i32 | u32 | i64 | u64 | usize | f32 | f64 => exact hn

/-- A value is tested against zero by an operator. -/
private theorem truthTest (h : Expressive written P) {n : Node} (s : Slot) (hn : P n) :
    P (truthTest n s) := by
  unfold Lowering.truthTest
  split
  · exact h.binary _ _ _ _ hn (h.const _)
  · exact h.absent _ hn

/-- A value is brought into another slot by a conversion, or is there already. -/
private theorem changeSlot (h : Expressive written P) {n : Node} (source target : Ty) (hn : P n) :
    P (changeSlot w n source target) := by
  unfold Lowering.changeSlot
  repeat' split
  all_goals first | exact h.convert _ _ hn | exact hn

/-- Code of a conversion has the property if its operand has it. -/
theorem coerce (h : Expressive written P) {n : Node} (source target : Ty) (hn : P n) :
    P (coerce w n source target) := by
  have hchanged := h.changeSlot (w := w) (source.resolve w) (target.resolve w) hn
  unfold Lowering.coerce coerceResolved
  dsimp only
  -- The cases are those of the conversion, from the types that are the same to those of other
  -- slots.
  repeat' split
  · exact hn
  · exact h.drop _ hn
  · exact h.absent _ hn
  · exact h.truthTest _ hn
  · exact h.normalize _ hchanged
  · exact hchanged

/-! ## Operands -/

/-- An operand compiles to code with the property for every type that is expected of it. -/
private abbrev Operands (P : Node → Prop) (e : Operand) : Prop :=
  ∀ expected, P (e.compile expected).value.node

variable {e left right : Operand} {expected : Ty} {span : Span}

/-- A condition is a conversion. -/
private theorem condition (h : Expressive written P) (he : Operands P e) :
    P (e.condition w).value := by
  unfold Operand.condition
  rw [Reported.value_bind, convertExplicit_value]
  exact h.coerce _ _ (he .bool)

/-- Code of a binary operator has the property if its operands have it, whatever they are compiled
    for. -/
private theorem compileBinary (h : Expressive written P) {op : Source.BinaryOp}
    (hl : Operands P left) (hr : Operands P right) :
    P (compileBinary w op left right expected span).value.node := by
  have hstrict : P (compileStrict w op left right expected span).value.node := by
    rcases compileStrict_cases w op left right expected span with
      ⟨problem, heq⟩ | ⟨l, r, operand, code, ⟨tl, rfl⟩, ⟨tr, rfl⟩, -, -, heq⟩
    · rw [heq]
      exact h.unreachable
    · rw [heq]
      dsimp only
      split
      · exact h.binary _ _ _ _ (h.coerce _ _ (hl tl)) (h.coerce _ _ (hr tr))
      · exact h.normalize _ (h.binary _ _ _ _ (h.coerce _ _ (hl tl)) (h.coerce _ _ (hr tr)))
  cases op with
  | and => exact h.ifElse _ _ _ _ (h.condition hl) (h.condition hr) (h.const _)
  | or => exact h.ifElse _ _ _ _ (h.condition hl) (h.const _) (h.condition hr)
  -- All other operators evaluate both of their operands.
  | _ => exact hstrict

/-- A literal is a constant. -/
private theorem compileLiteral (h : Expressive written P) (literal : Literal) :
    P (compileLiteral w literal expected).node := by
  unfold Lowering.compileLiteral
  dsimp only
  repeat' split
  all_goals exact h.const _

/-- Code of a unary operator has the property if its operand has it. -/
private theorem compileUnary (h : Expressive written P) {op : Source.UnaryOp}
    {literal? : Option Literal} (he : Operands P e) :
    P (compileUnary w op e literal? expected span).value.node := by
  unfold Lowering.compileUnary
  split
  · exact he expected
  · exact h.unary _ _ _ (h.condition he)
  · exact h.compileLiteral _
  · exact h.compileLiteral _
  · simp only [Reported.value_bind]
    split
    · exact h.unary _ _ _ (he expected)
    split
    · -- The zero that an integer is subtracted from is a constant, or missing.
      refine h.normalize _ (h.binary _ _ _ _ ?_ (he expected))
      split
      · exact h.const _
      · exact h.nop
    · exact h.unreachable
  · simp only [Reported.value_bind]
    split
    · refine h.normalize _ (h.binary _ _ _ _ (he expected) ?_)
      split <;> exact h.const _
    · exact h.unreachable

/-! ## Expressions -/

variable {ctx : Context}

/-- The new value of a variable has the property, and the variable is one that is in scope. -/
private theorem compileUpdate (h : Expressive ctx.Names P) {op : Source.AssignOp}
    {target : Source.Ident} {value : Operand} (hvalue : Operands P value) {v : Variable} {n : Node}
    (heq : (compileUpdate ctx op target value span).value = some (v, n)) :
    ctx.Names v.index ∧ P n := by
  obtain ⟨hfind, c, rfl, hc⟩ := compileUpdate_eq_some heq
  refine ⟨⟨target.name, v, hfind, rfl⟩, h.coerce _ _ ?_⟩
  -- A compound assignment is a binary operator on the variable.
  rcases hc with rfl | ⟨op, current, hcurrent, rfl⟩
  · exact hvalue v.ty
  · exact h.compileBinary (fun _ => by rw [hcurrent]; exact h.localGet _ _) hvalue

mutual

/-- Compiled code has every property that passes from the parts of nodes to the nodes. The induction
    is on the expression. -/
theorem compile (h : Expressive ctx.Names P) :
    (e : Expr) → (expected : Ty) → P (compile ctx e expected).value.node
  | .literal _ value, expected => by
    simp only [Lowering.compile]
    exact h.compileLiteral value
  | .paren _ inner, expected => by
    simp only [Lowering.compile]
    exact compile h inner expected
  | .name span name, expected => by
    simp only [Lowering.compile]
    split
    · exact h.localGet _ _
    · exact h.unreachable
  | .unary span op operand, expected => by
    simp only [Lowering.compile]
    exact h.compileUnary fun t => compile h operand t
  | .binary span op left right, expected => by
    simp only [Lowering.compile]
    exact h.compileBinary (fun t => compile h left t) fun t => compile h right t
  | .assign span op target value, expected => by
    simp only [Lowering.compile, Reported.value_bind]
    split
    next => exact h.unreachable
    next v n heq =>
      obtain ⟨hv, hn⟩ := h.compileUpdate (fun t => compile h value t) heq
      -- The variable is one that may be written.
      exact h.localTee _ _ _ hv hn
  | .call span callee args, expected => by
    simp only [Lowering.compile]
    split
    next => exact h.unreachable
    next s _ =>
      split
      next => exact h.unreachable
      next => exact h.call _ _ _ (compileArgs h args s.params)
  | .cast _ operand t, expected => by
    simp only [Lowering.compile, Reported.value_bind, convertExplicit_value]
    exact h.coerce _ _ (compile h operand t)
termination_by structural e => e

private theorem compileArgs (h : Expressive ctx.Names P) : (args : List Expr) → (params : List Ty) →
    ∀ n ∈ (compileArgs ctx args params).value, P n
  | [], _ => fun n hn => by cases hn
  | _ :: _, [] => fun n hn => by cases hn
  | arg :: args, t :: ts => by
    simp only [Lowering.compileArgs, Reported.value_bind, Reported.value_pure,
      convertImplicit_value]
    exact List.forall_mem_cons.2 ⟨h.coerce _ _ (compile h arg t), compileArgs h args ts⟩
termination_by structural args => args

end

/-- The discriminant of a switch is a conversion. -/
theorem compileDiscriminant (h : Expressive ctx.Names P) (e : Expr) :
    P (compileDiscriminant ctx e).value.1 := by
  simp only [Lowering.compileDiscriminant, Reported.value_bind, convertExplicit_value]
  exact h.coerce _ _ (h.compile e .void)

/-- A guard is a conversion. -/
theorem compileGuard (h : Expressive ctx.Names P) (compared : Ty) (e : Expr) :
    P (compileGuard ctx compared e).value := by
  simp only [Lowering.compileGuard, Reported.value_bind, convertExplicit_value]
  exact h.coerce _ _ (h.compile e compared)

end Expressive

end Weir.Lowering
