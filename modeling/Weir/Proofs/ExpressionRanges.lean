import Mathlib.Algebra.Group.Nat.Defs
import Weir.Proofs.ExpressionTyping
import Weir.Proofs.ValueRanges

/-!
# Ranges of compiled expressions

An expression compiles to code that yields values in the range of its type. Arithmetic on a small
type is brought back into its range, and so is what a conversion can have changed; a conversion that
cannot change the value leads from one range into another.

## Key results

- `normalize_within`: normalised code yields values in range, whatever it was made from
- `coerce_within`: conversions lead from the range of their source to the range of their target
- `compile_within`: compiled expressions yield values in the range of their type
-/

namespace Weir.Source

/-- Small types are kept in the slot of a word. -/
theorem Ty.slot_of_bounds? {w : PointerWidth} {t : Ty} (h : t.bounds? ≠ none) :
    t.slot w = .i32 := by
  cases t with
  | bool | i8 | u8 | i16 | u16 => rfl
  | void | i32 | u32 | i64 | u64 | usize | f32 | f64 => exact absurd rfl h

end Weir.Source

/-! ## Operators -/

namespace Weir.Code

open Weir.Source (Ty)

variable {v x y : Value}

/-- The low bits of a word, read with a sign. -/
private theorem contains_extend8 (h : Conversion.extend8.eval x = .ok v) : Ty.i8.Contains v := by
  cases x with
  | i32 a =>
    cases h
    rw [Ty.contains_i32 rfl, BitVec.toInt_signExtend_of_le (by decide)]
    have hlo := BitVec.le_toInt (a.setWidth 8)
    have hhi := BitVec.toInt_lt (x := a.setWidth 8)
    omega
  | i64 a | f32 a | f64 a => cases h

/-- Extending the low half of a word yields a number of `i16`. -/
private theorem contains_extend16 (h : Conversion.extend16.eval x = .ok v) : Ty.i16.Contains v := by
  cases x with
  | i32 a =>
    cases h
    rw [Ty.contains_i32 rfl, BitVec.toInt_signExtend_of_le (by decide)]
    have hlo := BitVec.le_toInt (a.setWidth 16)
    have hhi := BitVec.toInt_lt (x := a.setWidth 16)
    omega
  | i64 a | f32 a | f64 a => cases h

/-- A word under a mask is not negative, and at most the mask. -/
private theorem toInt_and_mask (a : BitVec 32) {mask : Nat} (hmask : mask < 2 ^ 31) :
    0 ≤ (a &&& BitVec.ofNat 32 mask).toInt ∧ (a &&& BitVec.ofNat 32 mask).toInt ≤ mask := by
  have hle : (a &&& BitVec.ofNat 32 mask).toNat ≤ mask := by
    rw [BitVec.toNat_and, BitVec.toNat_ofNat, Nat.mod_eq_of_lt (by omega)]
    exact Nat.and_le_right
  rw [BitVec.toInt_eq_toNat_of_lt (by omega)]
  omega

/-- The low 8 bits of a word are a number of `u8`. -/
private theorem contains_mask8 (h : BinaryOp.and.eval x (.i32 (BitVec.ofInt 32 0xff)) = .ok v) :
    Ty.u8.Contains v := by
  cases x with
  | i32 a =>
    cases h
    rw [Ty.contains_i32 rfl]
    exact toInt_and_mask a (by decide)
  | i64 a | f32 a | f64 a => cases h

/-- The low 16 bits of a word are a number of `u16`. -/
private theorem contains_mask16 (h : BinaryOp.and.eval x (.i32 (BitVec.ofInt 32 0xffff)) = .ok v) :
    Ty.u16.Contains v := by
  cases x with
  | i32 a =>
    cases h
    rw [Ty.contains_i32 rfl]
    exact toInt_and_mask a (by decide)
  | i64 a | f32 a | f64 a => cases h

/-- A comparison of integers yields a truth value. -/
private theorem onInts_ofBool {w : Nat} {inject : BitVec w → Value} {op : BinaryOp}
    {a b : BitVec w} (hop : op.isComparison) (h : op.onInts inject a b = .ok v) :
    ∃ t, v = .ofBool t := by
  cases op <;> cases hop <;> cases h <;> exact ⟨_, rfl⟩

/-- A comparison of floats yields a truth value. -/
private theorem onFloats_ofBool {f : Format} {inject : Binary f → Value} {op : BinaryOp}
    {a b : Binary f} (hop : op.isComparison) (h : op.onFloats inject a b = .ok v) :
    ∃ t, v = .ofBool t := by
  cases op <;> cases hop <;> cases h <;> exact ⟨_, rfl⟩

/-- A comparison yields a truth value. -/
private theorem contains_comparison {op : BinaryOp} (hop : op.isComparison)
    (h : op.eval x y = .ok v) :
    Ty.bool.Contains v := by
  obtain ⟨t, rfl⟩ : ∃ t, v = .ofBool t := by
    unfold BinaryOp.eval at h
    split at h
    · exact onInts_ofBool hop h
    · exact onInts_ofBool hop h
    · exact onFloats_ofBool hop h
    · exact onFloats_ofBool hop h
    · cases h
  exact Ty.contains_ofBool t

/-- The test for zero yields a truth value. -/
private theorem contains_eqz (h : UnaryOp.eqz.eval x = .ok v) : Ty.bool.Contains v := by
  cases x with
  | i32 a => cases h; exact Ty.contains_ofBool _
  | i64 a => cases h; exact Ty.contains_ofBool _
  | f32 a | f64 a => cases h

/-! ## Code that yields values of a type -/

/-- Code respects its types, and the values that it may yield are in the range of the given type. -/
structure Node.Within (Γ : SourceTypes) (n : Node) (t : Ty) : Prop where
  respects : n.Respects Γ
  contains : ∀ v, n.MayYield Γ v → t.Contains v

variable {Γ : SourceTypes} {n : Node} {t : Ty}

/-- A type that fills its slot has no range to stay in. -/
theorem Node.within_of_bounds?_eq_none (h : n.Respects Γ) (ht : t.bounds? = none) :
    n.Within Γ t :=
  ⟨h, fun _ _ => Ty.contains_of_bounds?_eq_none ht⟩

/-- A constant is within the types that contain it. -/
theorem Node.within_const {v : Value} (h : t.Contains v) : (Node.const v).Within Γ t :=
  ⟨trivial, fun x hx => by cases hx; exact h⟩

/-- A node that traps has no value, so it is within every type. -/
theorem Node.within_unreachable : Node.unreachable.Within Γ t :=
    ⟨trivial, fun _ h => h.elim⟩

/-- A node that ends in a trap yields nothing. -/
theorem Node.within_absent (h : n.Respects Γ) : (Lowering.absent n).Within Γ t where
  respects := ⟨h, trivial, trivial⟩
  contains v hv := by
    rcases hv with ⟨hnil, -⟩ | ⟨-, hv⟩ | hv
    · cases hnil
    · cases hv
    · cases hv

/-- A comparison is within `bool`. -/
theorem Node.within_comparison {op : BinaryOp} {s : Slot} {l r : Node}
    (hop : op.isComparison)
    (hl : l.Respects Γ) (hr : r.Respects Γ) : (Node.binary op s l r).Within Γ .bool where
  respects := ⟨hl, hr⟩
  contains v hv := by
    obtain ⟨x, y, -, -, heval⟩ := hv
    exact contains_comparison hop heval

end Weir.Code

namespace Weir.Lowering

open Weir.Code (Node Slot SourceTypes AllRespect Value)
open Weir.Source (Expr Literal PointerWidth Span Ty)

variable {Γ : SourceTypes} {w : PointerWidth}

/-! ## Conversions -/

/-- Normalised code yields values in range, whatever it was made from. -/
theorem normalize_within {n : Node} {t : Ty} (h : n.Respects Γ) : (normalize n t).Within Γ t := by
  -- Small types are brought into their range by an operator, and the others have no range to be in.
  cases t with
  | i8 =>
    refine ⟨h, fun v hv => ?_⟩
    obtain ⟨x, -, heval⟩ := hv
    exact Code.contains_extend8 heval
  | i16 =>
    refine ⟨h, fun v hv => ?_⟩
    obtain ⟨x, -, heval⟩ := hv
    exact Code.contains_extend16 heval
  | u8 =>
    refine ⟨⟨h, trivial⟩, fun v hv => ?_⟩
    obtain ⟨x, y, -, rfl, heval⟩ := hv
    exact Code.contains_mask8 heval
  | u16 =>
    refine ⟨⟨h, trivial⟩, fun v hv => ?_⟩
    obtain ⟨x, y, -, rfl, heval⟩ := hv
    exact Code.contains_mask16 heval
  | bool => exact Node.within_comparison rfl h trivial
  | void | i32 | u32 | i64 | u64 | usize | f32 | f64 =>
    exact Node.within_of_bounds?_eq_none h rfl

/-- A truth test is within `bool`. -/
private theorem truthTest_within {n : Node} {s : Slot} (h : n.Respects Γ) :
    (truthTest n s).Within Γ .bool := by
  cases s with
  | none => exact Node.within_absent h
  | i32 | i64 | f32 | f64 => exact Node.within_comparison rfl h trivial

/-- A change of slot respects what its operand does. -/
private theorem changeSlot_respects {n : Node} (source target : Ty) (h : n.Respects Γ) :
    (changeSlot w n source target).Respects Γ := by
  unfold changeSlot
  repeat' split
  all_goals exact h

/-- A small type that another type goes into without a loss has all numbers of that type, and keeps
    them in the same slot. -/
private theorem changeSlot_of_lossless {n : Node} {source target : Ty}
    (hsource : source.isVoid = false) (hbool : target ≠ .bool)
    (hlossless : losslessResolved source target) (hsmall : target.bounds? ≠ none) :
    changeSlot w n source target = n ∧ ∀ lo hi, target.bounds? = some (lo, hi) →
      ∃ lo' hi', source.bounds? = some (lo', hi') ∧ lo ≤ lo' ∧ hi' ≤ hi := by
  -- Only types that are smaller than their slot have bounds.
  cases target with
  | bool => exact absurd rfl hbool
  | void | i32 | u32 | i64 | u64 | usize | f32 | f64 => exact absurd rfl hsmall
  | i8 | u8 | i16 | u16 =>
    refine ⟨?_, ?_⟩
    · cases source <;> first
        | rfl
        | exact absurd hsource (by decide)
        | exact absurd hlossless (by decide)
    · rintro lo hi ⟨⟩
      cases source <;> first
        | exact ⟨_, _, rfl, by decide, by decide⟩
        | exact absurd hsource (by decide)
        | exact absurd hlossless (by decide)

/-- The conversion of a value is within the type that it leads to. -/
private theorem coerceResolved_within {n : Node} {source target : Ty} (h : n.Within Γ source) :
    (coerceResolved w n source target).Within Γ target := by
  unfold coerceResolved
  by_cases heq : source = target
  · rw [if_pos heq, ← heq]
    exact h
  rw [if_neg heq]
  by_cases htarget : target.isVoid
  · rw [if_pos htarget]
    exact ⟨h.respects, fun v hv => by cases hv⟩
  rw [if_neg htarget]
  by_cases hsource : source.isVoid
  · rw [if_pos hsource]
    exact Node.within_absent h.respects
  rw [if_neg hsource]
  by_cases hbool : target = .bool
  · rw [if_pos hbool, hbool]
    exact truthTest_within h.respects
  -- What is left is a change of slot, which is normalized unless nothing can be lost.
  rw [if_neg hbool]
  have hchanged := changeSlot_respects (w := w) source target h.respects
  dsimp only
  split
  · exact normalize_within hchanged
  next hkept =>
    by_cases hsmall : target.bounds? = none
    · exact Node.within_of_bounds?_eq_none hchanged hsmall
    -- A small target is only left as it is if nothing can be lost.
    have hbits : target.bits w < 32 := by
      cases target <;> first | exact absurd rfl hsmall | simp [Ty.bits]
    have hlossless : losslessResolved source target := by
      simpa [hbits] using hkept
    obtain ⟨hsame, hbounds⟩ := changeSlot_of_lossless (w := w) (n := n) (by simpa using hsource)
      hbool hlossless hsmall
    rw [hsame]
    exact ⟨h.respects, fun v hv => (h.contains v hv).mono hbounds⟩

/-- A conversion leads from the range of its source to the range of its target. -/
theorem coerce_within {n : Node} {source target : Ty} (h : n.Within Γ source) :
    (coerce w n source target).Within Γ target := by
  have hresolved : n.Within Γ (source.resolve w) :=
    ⟨h.respects, fun v hv => (Ty.contains_resolve w).2 (h.contains v hv)⟩
  have hcoerced : (coerceResolved w n _ (target.resolve w)).Within Γ (target.resolve w) :=
    coerceResolved_within hresolved
  exact ⟨hcoerced.respects, fun v hv => (Ty.contains_resolve w).1 (hcoerced.contains v hv)⟩

/-! ## Literals and operators -/

/-- Compiled code yields values in the range of its type. -/
def Compiled.Within (Γ : SourceTypes) (c : Compiled) : Prop := c.node.Within Γ c.ty

/-- What could not be compiled is within every type. -/
private theorem poisoned_within {expected : Ty} {problem : Problem} {span : Span} :
    (poisoned w expected problem span).value.Within Γ :=
  Node.within_unreachable

/-- A number in the range of a word is kept when it is cut down to a word. -/
private theorem toInt_setWidth_word {value : BitVec 64} (hlo : -2147483648 ≤ value.toInt)
    (hhi : value.toInt ≤ 2147483647) : (value.setWidth 32).toInt = value.toInt := by
  have hlt := value.isLt
  simp only [BitVec.toInt_eq_toNat_cond, BitVec.toNat_setWidth] at hlo hhi ⊢
  omega

/-- A literal that fits a type is one of its numbers. -/
private theorem contains_integerConstant {value : BitVec 64} {t : Ty} (h : literalFits value t) :
    t.Contains (integerConstant value t) := by
  cases t with
  | void | bool => exact absurd h (by simp [literalFits, Ty.isFloat])
  | i32 | u32 | i64 | u64 | usize | f32 | f64 => exact Ty.contains_of_bounds?_eq_none rfl
  | i8 | u8 | i16 | u16 =>
    simp only [literalFits, Bool.and_eq_true, decide_eq_true_eq] at h
    obtain ⟨hlo, hhi⟩ := h
    simp only [integerConstant]
    rw [Ty.contains_i32 rfl, toInt_setWidth_word (by omega) (by omega)]
    exact ⟨hlo, hhi⟩

/-- A literal is within the type that it is compiled for. -/
private theorem compileLiteral_within {literal : Literal} {expected : Ty} :
    (compileLiteral w literal expected).Within Γ := by
  cases literal with
  | boolean value => exact Node.within_const (Ty.contains_ofBool value)
  | float value =>
    unfold compileLiteral
    dsimp only
    split
    · exact Node.within_const (Ty.contains_of_bounds?_eq_none rfl)
    · exact Node.within_const (Ty.contains_of_bounds?_eq_none rfl)
  | int value =>
    unfold compileLiteral
    dsimp only
    -- An integer that the expected type lacks is of a type that fills its slot.
    by_cases hfits : literalFits value (expected.resolve w)
    · rw [if_pos hfits]
      exact Node.within_const (contains_integerConstant hfits)
    · rw [if_neg hfits]
      split
      · exact Node.within_const (Ty.contains_of_bounds?_eq_none rfl)
      · exact Node.within_const (Ty.contains_of_bounds?_eq_none rfl)

/-- The operator of code for a comparison is one, too. -/
private theorem isComparison_of_operatorFor? {op : Source.BinaryOp} {t : Ty}
    {code : Code.BinaryOp} (h : operatorFor? op t = some code) (hop : op.isComparison) :
    code.isComparison := by
  cases op <;> cases hop <;> simp only [operatorFor?, Option.some.injEq] at h <;> subst h <;>
    first
    | rfl
    | (split; · rfl
       · split <;> rfl)

/-! ## Operands -/

/-- An operand compiles to code in range for every type that is expected of it. -/
def Operand.Within (Γ : SourceTypes) (e : Operand) : Prop :=
  ∀ expected, (e.compile expected).value.Within Γ

section

variable {e left right : Operand} {expected : Ty} {span : Span}

/-- The truth test of an operand is within `bool`. -/
private theorem Operand.Within.condition (h : e.Within Γ) :
    (e.condition w).value.Within Γ .bool := by
  unfold Operand.condition
  rw [Reported.value_bind, convertExplicit_value]
  exact coerce_within (h .bool)

/-- A logical operator is within `bool`, whichever of its branches is taken. -/
private theorem compileLogical_within (isAnd : Bool) (hl : left.Within Γ) (hr : right.Within Γ) :
    (compileLogical w isAnd left right).value.Within Γ := by
  have hleft := hl.condition (w := w)
  have hright := hr.condition (w := w)
  have hzero : (Node.i32Const 0).Within Γ .bool := Node.within_const (Ty.contains_ofBool false)
  have hone : (Node.i32Const 1).Within Γ .bool := Node.within_const (Ty.contains_ofBool true)
  cases isAnd with
  | true =>
    refine ⟨⟨hleft.respects, hright.respects, trivial⟩, fun v hv => ?_⟩
    rcases hv with hv | hv
    · exact hright.contains v hv
    · exact hzero.contains v hv
  | false =>
    refine ⟨⟨hleft.respects, trivial, hright.respects⟩, fun v hv => ?_⟩
    rcases hv with hv | hv
    · exact hone.contains v hv
    · exact hright.contains v hv

/-- A strict operator is within the type of its result. -/
private theorem compileStrict_within {op : Source.BinaryOp} (hl : left.Within Γ)
    (hr : right.Within Γ) : (compileStrict w op left right expected span).value.Within Γ := by
  rcases compileStrict_cases w op left right expected span with
    ⟨problem, heq⟩ | ⟨l, r, operand, code, ⟨tl, rfl⟩, ⟨tr, rfl⟩, -, hcode, heq⟩
  · rw [heq]
    exact poisoned_within
  · have hleft : (coerce w _ _ operand).Within Γ operand := coerce_within (hl tl)
    have hright : (coerce w _ _ operand).Within Γ operand := coerce_within (hr tr)
    rw [heq]
    dsimp only
    split
    next hcomparison =>
      exact Node.within_comparison (isComparison_of_operatorFor? hcode hcomparison)
        hleft.respects hright.respects
    next => exact normalize_within ⟨hleft.respects, hright.respects⟩

/-- A binary operator on operands in range yields values in range. -/
private theorem compileBinary_within {op : Source.BinaryOp} (hl : left.Within Γ)
    (hr : right.Within Γ) :
    (compileBinary w op left right expected span).value.Within Γ := by
  cases op with
  | and => exact compileLogical_within true hl hr
  | or => exact compileLogical_within false hl hr
  | _ => exact compileStrict_within hl hr

/-- A unary operator on operands within their types yields values of its own type. -/
private theorem compileUnary_within {op : Source.UnaryOp} {literal? : Option Literal}
    (h : e.Within Γ) : (compileUnary w op e literal? expected span).value.Within Γ := by
  cases op with
  | plus => exact h expected
  | not =>
    refine ⟨(h.condition (w := w)).respects, fun v hv => ?_⟩
    obtain ⟨x, -, heval⟩ := hv
    exact Code.contains_eqz heval
  | bitNot =>
    simp only [compileUnary, Reported.value_bind]
    split
    · refine normalize_within ⟨(h expected).respects, ?_⟩
      split <;> trivial
    · exact poisoned_within
  | minus =>
    have hsign : (compileUnary w .minus e none expected span).value.Within Γ := by
      simp only [compileUnary, Reported.value_bind]
      split
      -- Floats have no range.
      next hfloat =>
        refine Node.within_of_bounds?_eq_none (h expected).respects ?_
        generalize (e.compile expected).value.ty.resolve w = t at hfloat
        cases t <;> first | rfl | cases hfloat
      next =>
        split
        · refine normalize_within ⟨?_, (h expected).respects⟩
          split <;> trivial
        · exact poisoned_within
    -- A minus sign in front of a number belongs to the literal.
    cases literal? with
    | none => exact hsign
    | some literal =>
      cases literal with
      | int value => exact compileLiteral_within
      | float value => exact compileLiteral_within
      | boolean value => exact hsign

end

/-! ## Expressions -/

/-- The source types have the type of each variable that can be named for its local, and the
    signature of each callable. -/
structure Context.Agrees (ctx : Context) (Γ : SourceTypes) : Prop where
  bindings : ∀ name v, ctx.bindings.find? name = some v → Γ.locals[v.index]? = some v.ty
  callables : ∀ name s, ctx.functions.find? name = some s →
    Γ.callee? s.id = some (s.params, s.result)

variable {ctx : Context}

/-- A local may hold the values of its type. -/
theorem mayHold_of_contains {index : Nat} {t : Ty} {v : Value} (hlocal : Γ.locals[index]? = some t)
    (h : t.Contains v) : Γ.MayHold index v := by
  intro t' ht'
  rw [hlocal] at ht'
  cases ht'
  exact h

/-- A variable holds values of its type. -/
private theorem readVariable_within {v : Variable} (hlocal : Γ.locals[v.index]? = some v.ty) :
    (readVariable w v).Within Γ :=
  ⟨trivial, fun _ hx => hx v.ty hlocal⟩

/-- An assignment writes a value of the type of its variable. -/
private theorem compileUpdate_within (hctx : ctx.Agrees Γ) {op : Source.AssignOp}
    {target : Source.Ident}
    {value : Operand} {span : Span} (hvalue : value.Within Γ) {v : Variable} {n : Node}
    (h : (compileUpdate ctx op target value span).value = some (v, n)) :
    Γ.locals[v.index]? = some v.ty ∧ n.Within Γ v.ty := by
  obtain ⟨hfind, c, rfl, hc⟩ := compileUpdate_eq_some h
  have hlocal := hctx.bindings _ _ hfind
  refine ⟨hlocal, coerce_within ?_⟩
  rcases hc with rfl | ⟨op, current, hcurrent, rfl⟩
  · exact hvalue v.ty
  · refine compileBinary_within (fun expected => ?_) hvalue
    rw [hcurrent]
    exact readVariable_within hlocal

mutual

/-- Compiled code yields values in the range of its type, whatever type is expected of it. The
    induction is on the expression, so that operands may be compiled for any type. -/
theorem compile_within (hctx : ctx.Agrees Γ) :
    (e : Expr) → (expected : Ty) → (compile ctx e expected).value.Within Γ
  | .literal _ value, expected => by
    simp only [compile]
    exact compileLiteral_within
  | .paren _ inner, expected => by
    simp only [compile]
    exact compile_within hctx inner expected
  | .name span name, expected => by
    simp only [compile]
    split
    next v hfind => exact readVariable_within (hctx.bindings _ _ hfind)
    next => exact poisoned_within
  | .unary span op operand, expected => by
    simp only [compile]
    exact compileUnary_within fun t => compile_within hctx operand t
  | .binary span op left right, expected => by
    simp only [compile]
    exact compileBinary_within (fun t => compile_within hctx left t)
      fun t => compile_within hctx right t
  -- The value is what the variable holds afterwards, and it is within the type of the variable.
  | .assign span op target value, expected => by
    simp only [compile, Reported.value_bind]
    split
    next => exact Node.within_unreachable
    next v n h =>
      obtain ⟨hlocal, hn⟩ := compileUpdate_within hctx (fun t => compile_within hctx value t) h
      refine ⟨⟨hn.respects, fun x hx => ?_⟩, hn.contains⟩
      exact mayHold_of_contains hlocal (hn.contains x hx)
  | .call span callee args, expected => by
    simp only [compile]
    split
    next => exact poisoned_within
    next s hfind =>
      split
      next => exact poisoned_within
      next hlen =>
        have hlen : s.params.length = args.length := by simpa using hlen
        -- A callee promises its result if the arguments are within the types of its parameters.
        have hcallee := hctx.callables _ _ hfind
        obtain ⟨hargs, hpassed⟩ := compileArgs_within hctx args s.params hlen
        refine ⟨⟨hargs, s.params, s.result, hcallee, hpassed⟩, fun v hv => ?_⟩
        obtain ⟨params, result, hcallee', hresult⟩ := hv
        rw [hcallee] at hcallee'
        cases hcallee'
        exact hresult
  | .cast _ operand t, expected => by
    simp only [compile, Reported.value_bind, convertExplicit_value]
    exact coerce_within (compile_within hctx operand t)
termination_by structural e => e

/-- As many arguments as parameters yield values in the ranges of the parameters. -/
private theorem compileArgs_within (hctx : ctx.Agrees Γ) : (args : List Expr) → (params : List Ty) →
    params.length = args.length → AllRespect Γ (compileArgs ctx args params).value ∧
      List.Forall₂ (fun n t => ∀ v, Node.MayYield Γ n v → t.Contains v)
        (compileArgs ctx args params).value params
  | [], [], _ => ⟨trivial, .nil⟩
  | arg :: args, t :: ts, hlen => by
    simp only [compileArgs, Reported.value_bind, convertImplicit_value]
    have hfirst : (coerce ctx.width _ _ t).Within Γ t := coerce_within (compile_within hctx arg t)
    obtain ⟨hargs, hpassed⟩ := compileArgs_within hctx args ts (by simpa using hlen)
    exact ⟨⟨hfirst.respects, hargs⟩, .cons hfirst.contains hpassed⟩
termination_by structural args => args

end

/-- Conditions respect the types. -/
theorem compileCondition_respects (hctx : ctx.Agrees Γ) (e : Expr) :
    (compileCondition ctx e).value.Respects Γ :=
  (Operand.Within.condition fun t => compile_within hctx e t).respects

/-- An expression whose value is dropped respects the ranges. -/
theorem compileDropped_respects (hctx : ctx.Agrees Γ) (e : Expr) (expected : Ty) :
    let c := (compile ctx e expected).value
    Node.Respects Γ (if c.ty.isVoid then c.node else .drop c.node) := by
  have hc := (compile_within hctx e expected).respects
  dsimp only
  split <;> exact hc

/-- Code whose value is not used respects the ranges. -/
theorem compileDiscarded_respects (hctx : ctx.Agrees Γ) :
    (e : Expr) → (compileDiscarded ctx e).value.Respects Γ
  | .paren _ inner => by
    simp only [compileDiscarded]
    exact compileDiscarded_respects hctx inner
  | .assign span op target value => by
    simp only [compileDiscarded, Reported.value_bind]
    split
    next => trivial
    next v n h =>
      obtain ⟨hlocal, hn⟩ := compileUpdate_within hctx (fun t => compile_within hctx value t) h
      exact ⟨hn.respects, fun x hx => mayHold_of_contains hlocal (hn.contains x hx)⟩
  | .literal .. | .name .. | .unary .. | .binary .. | .call .. | .cast .. => by
    simp only [compileDiscarded]
    exact compileDropped_respects hctx _ _

end Weir.Lowering
