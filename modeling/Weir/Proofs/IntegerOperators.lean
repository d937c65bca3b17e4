import Weir.Proofs.IntegerConversions
import Weir.Proofs.QuietCode

/-!
# Operators on integers

The operands of a binary operator may be of different integer types. They are converted to a type in
which they meet; if nothing is reported, that type has all numbers of both. So the operator works on
the numbers themselves, and what it does can be said of integers: comparisons are those of integers,
results are exact but for the wrap to the type of the result, and only quotients can trap.

## Key results

- `eval_comparison`, `eval_arithmetic`: the operators of code on numbers of one type
- `compileStrict_unreported`: the type in which the operands meet, if nothing is reported
- `compile_binary_applies`: a binary operator on two variables of integer types, or of `bool`
-/

namespace Weir.Source

/-! ## Meaning of the operators on numbers -/

namespace BinaryOp

/-- The truth value of a comparison or a logical operator on numbers. -/
def truth? (op : BinaryOp) (a b : Int) : Option Bool :=
  match op with
  | eq => some (a = b)
  | ne => some (a ≠ b)
  | lt => some (a < b)
  | le => some (a ≤ b)
  | gt => some (a > b)
  | ge => some (a ≥ b)
  | and => some (a != 0 && b != 0)
  | or => some (a != 0 || b != 0)
  | _ => none

/-- The exact result of an arithmetic operator on numbers. Quotients are truncated toward zero, and
    bitwise operators work on two's complements. -/
def result? (op : BinaryOp) (a b : Int) : Option Int :=
  match op with
  | add => some (a + b)
  | sub => some (a - b)
  | mul => some (a * b)
  | div => some (a.tdiv b)
  | mod => some (a.tmod b)
  | bitAnd => some (a.land b)
  | bitOr => some (a.lor b)
  | bitXor => some (a.xor b)
  | _ => none

/-- Why an operator cannot be applied to two numbers of an integer type. -/
def trap? (w : PointerWidth) (op : BinaryOp) (t : Ty) (a b : Int) : Option Machine.Trap :=
  match op with
  | div =>
    if b = 0 then some .integerDivideByZero
    -- Smaller types have a slot with room for the quotient.
    else if (t = .i32 ∨ t = .i64) ∧ a = t.least w ∧ b = -1 then some .integerOverflow
    else none
  | mod => if b = 0 then some .integerDivideByZero else none
  | _ => none

end BinaryOp

namespace Ty

open Weir.Code (IntSlot Value)

variable {w : PointerWidth} {t : Ty} {a b : Int}

/-! ## Comparisons -/

/-- Patterns of a signed type are compared as the numbers are. -/
private theorem InRange.slt_ofInt (h : t.isIntegral) (hs : t.isSigned) (ha : t.InRange w a)
    (hb : t.InRange w b) :
    (BitVec.ofInt (t.intSlot w).bits a).slt (BitVec.ofInt _ b) = decide (a < b) := by
  rw [Bool.eq_iff_iff, BitVec.slt_iff_toInt_lt, ha.toInt_ofInt h hs, hb.toInt_ofInt h hs,
    decide_eq_true_iff]

/-- Signed numbers are compared as their patterns are. -/
private theorem InRange.sle_ofInt (h : t.isIntegral) (hs : t.isSigned) (ha : t.InRange w a)
    (hb : t.InRange w b) :
    (BitVec.ofInt (t.intSlot w).bits a).sle (BitVec.ofInt _ b) = decide (a ≤ b) := by
  rw [Bool.eq_iff_iff, BitVec.sle_iff_toInt_le, ha.toInt_ofInt h hs, hb.toInt_ofInt h hs,
    decide_eq_true_iff]

/-- Numbers of an unsigned type are compared as their patterns are without a sign. -/
private theorem InRange.ult_ofInt (h : t.isIntegral) (hs : t.isSigned = false) (ha : t.InRange w a)
    (hb : t.InRange w b) :
    (BitVec.ofInt (t.intSlot w).bits a).ult (BitVec.ofInt _ b) = decide (a < b) := by
  rw [Bool.eq_iff_iff, BitVec.ult_iff_toNat_lt, decide_eq_true_iff]
  zify
  rw [ha.toNat_ofInt h hs, hb.toNat_ofInt h hs]

/-- Unsigned numbers are compared as their patterns are. -/
private theorem InRange.ule_ofInt (h : t.isIntegral) (hs : t.isSigned = false) (ha : t.InRange w a)
    (hb : t.InRange w b) :
    (BitVec.ofInt (t.intSlot w).bits a).ule (BitVec.ofInt _ b) = decide (a ≤ b) := by
  rw [Bool.eq_iff_iff, BitVec.ule_iff_toNat_le, decide_eq_true_iff]
  zify
  rw [ha.toNat_ofInt h hs, hb.toNat_ofInt h hs]

/-! ## Quotients -/

/-- Signed division of patterns is that of the numbers, apart from the one quotient that overflows.
    -/
private theorem InRange.sdiv_ofInt (h : t.isIntegral) (hs : t.isSigned) (ha : t.InRange w a)
    (hb : t.InRange w b) (hover : BitVec.ofInt (t.intSlot w).bits a ≠ BitVec.intMin _ ∨
      BitVec.ofInt (t.intSlot w).bits b ≠ -1) :
    (BitVec.ofInt (t.intSlot w).bits a).sdiv (BitVec.ofInt _ b) = BitVec.ofInt _ (a.tdiv b) := by
  rw [← BitVec.ofInt_toInt (x := (BitVec.ofInt _ a).sdiv _),
    BitVec.toInt_sdiv_of_ne_or_ne _ _ hover, ha.toInt_ofInt h hs, hb.toInt_ofInt h hs]

/-- The signed remainder of patterns is that of the numbers. -/
private theorem InRange.srem_ofInt (h : t.isIntegral) (hs : t.isSigned) (ha : t.InRange w a)
    (hb : t.InRange w b) :
    (BitVec.ofInt (t.intSlot w).bits a).srem (BitVec.ofInt _ b) = BitVec.ofInt _ (a.tmod b) := by
  rw [← BitVec.ofInt_toInt (x := (BitVec.ofInt _ a).srem _), BitVec.toInt_srem,
    ha.toInt_ofInt h hs, hb.toInt_ofInt h hs]

/-- Unsigned division of patterns is that of the numbers. -/
private theorem InRange.udiv_ofInt (h : t.isIntegral) (hs : t.isSigned = false) (ha : t.InRange w a)
    (hb : t.InRange w b) :
    BitVec.ofInt (t.intSlot w).bits a / BitVec.ofInt _ b = BitVec.ofInt _ (a.tdiv b) := by
  rw [← ofInt_toNat (BitVec.ofInt _ a / _), BitVec.toNat_udiv, Int.ofNat_tdiv,
    ha.toNat_ofInt h hs, hb.toNat_ofInt h hs]

/-- The unsigned remainder of patterns is that of the numbers. -/
private theorem InRange.umod_ofInt (h : t.isIntegral) (hs : t.isSigned = false) (ha : t.InRange w a)
    (hb : t.InRange w b) :
    BitVec.ofInt (t.intSlot w).bits a % BitVec.ofInt _ b = BitVec.ofInt _ (a.tmod b) := by
  rw [← ofInt_toNat (BitVec.ofInt _ a % _), BitVec.toNat_umod, Int.ofNat_tmod,
    ha.toNat_ofInt h hs, hb.toNat_ofInt h hs]

/-- Only the types that fill their slot have its least number. -/
theorem InRange.eq_intMin_iff (h : t.isIntegral) (hs : t.isSigned) (ha : t.InRange w a) :
    BitVec.ofInt (t.intSlot w).bits a = BitVec.intMin _ ↔ (t = i32 ∨ t = i64) ∧ a = t.least w := by
  have hmin : (BitVec.intMin (t.intSlot w).bits).toInt = -2 ^ ((t.intSlot w).bits - 1) := by
    cases t.intSlot w <;> decide
  rw [← BitVec.toInt_inj, ha.toInt_ofInt h hs, hmin]
  obtain ⟨hlo, -⟩ := ha
  cases t with
  | i32 | i64 => simp [least, intSlot, resolve, isSigned, IntSlot.bits, bits]
  | i8 | i16 =>
    -- The least number of the slot is out of the range of a smaller type.
    simp only [least, intSlot, resolve, isSigned, IntSlot.bits, bits, if_true, reduceCtorEq,
      or_self, false_and, iff_false] at hlo ⊢
    omega
  | void | bool | u8 | u16 | u32 | u64 | usize => cases hs
  | f32 | f64 => cases h

/-- Only minus one has the pattern of ones. -/
theorem InRange.eq_neg_one_iff (h : t.isIntegral) (hs : t.isSigned) (hb : t.InRange w b) :
    BitVec.ofInt (t.intSlot w).bits b = -1 ↔ b = -1 := by
  have hneg : (-1 : BitVec (t.intSlot w).bits).toInt = -1 := by
    cases t.intSlot w <;> decide
  rw [← BitVec.toInt_inj, hb.toInt_ofInt h hs, hneg]

/-- Only zero has the pattern of zeros. -/
theorem InRange.eq_zero_iff (h : t.isIntegral) (hb : t.InRange w b) :
    BitVec.ofInt (t.intSlot w).bits b = 0 ↔ b = 0 := by
  have hzero : (0 : BitVec (t.intSlot w).bits) = BitVec.ofInt _ 0 := by
    cases t.intSlot w <;> decide
  rw [hzero, hb.ofInt_inj h (inRange_zero h)]

end Ty
end Weir.Source

namespace Weir.Lowering

open Weir.Code (Node Value)
open Weir.Machine (Run evalNode evalNode_binary evalNode_convert)
open Weir.Source (PointerWidth Ty)

section
variable {op : Source.BinaryOp} {code : Code.BinaryOp} {w : PointerWidth} {t : Ty} {a b : Int}

/-- The operator of code for a comparison yields whether the relation holds. -/
theorem eval_comparison {p : Bool} (h : t.isIntegral) (hcode : operatorFor? op t = some code)
    (ha : t.InRange w a) (hb : t.InRange w b) (hp : op.truth? a b = some p) :
    code.eval (t.encode w a) (t.encode w b) = .ok (.ofBool p) := by
  rw [eval_encode]
  have hfloat := Ty.isFloat_of_isIntegral h
  have heq : (BitVec.ofInt (t.intSlot w).bits a == BitVec.ofInt _ b) = decide (a = b) := by
    rw [Bool.eq_iff_iff, beq_iff_eq, ha.ofInt_inj h hb, decide_eq_true_iff]
  -- Equality is that of patterns. The order depends on the sign of the type.
  cases op with
  | eq =>
    cases hcode; cases hp
    rw [Code.BinaryOp.onInts, heq]
  | ne =>
    cases hcode; cases hp
    rw [Code.BinaryOp.onInts, bne, heq, decide_not]
  | lt | le | gt | ge =>
    cases hs : t.isSigned with
    | true =>
      simp only [operatorFor?, hfloat, hs, if_true, Bool.false_eq_true, if_false,
        Option.some.injEq] at hcode
      cases hcode; cases hp
      simp only [Code.BinaryOp.onInts, ha.slt_ofInt h hs hb, ha.sle_ofInt h hs hb,
        hb.slt_ofInt h hs ha, hb.sle_ofInt h hs ha]
    | false =>
      simp only [operatorFor?, hfloat, hs, Bool.false_eq_true, if_false,
        Option.some.injEq] at hcode
      cases hcode; cases hp
      simp only [Code.BinaryOp.onInts, ha.ult_ofInt h hs hb, ha.ule_ofInt h hs hb,
        hb.ult_ofInt h hs ha, hb.ule_ofInt h hs ha]
  | and | or => cases hcode
  | _ => cases hp

/-- A quotient is truncated, unless there is none or it is out of range. -/
private theorem eval_div (h : t.isIntegral) (hcode : operatorFor? .div t = some code)
    (ha : t.InRange w a) (hb : t.InRange w b) :
    code.eval (t.encode w a) (t.encode w b) =
      match Source.BinaryOp.div.trap? w t a b with
      | some reason => .error reason
      | none => .ok (t.encode w (a.tdiv b)) := by
  have hzero : BitVec.ofInt (t.intSlot w).bits b = 0 ↔ b = 0 := hb.eq_zero_iff h
  rw [eval_encode]
  cases hs : t.isSigned with
  | true =>
    obtain rfl : .divS = code := by
      simpa [operatorFor?, Ty.isFloat_of_isIntegral h, hs] using hcode
    -- The quotient overflows only where the least number of the slot is one of the type.
    have hover : BitVec.ofInt (t.intSlot w).bits a = BitVec.intMin _ ∧
        BitVec.ofInt (t.intSlot w).bits b = -1 ↔
          (t = .i32 ∨ t = .i64) ∧ a = t.least w ∧ b = -1 := by
      rw [ha.eq_intMin_iff h hs, hb.eq_neg_one_iff h hs, and_assoc]
    simp only [Code.BinaryOp.onInts, Source.BinaryOp.trap?, hzero, hover]
    by_cases hb₀ : b = 0
    · rw [if_pos hb₀, if_pos hb₀]
    rw [if_neg hb₀, if_neg hb₀]
    by_cases hmin : (t = .i32 ∨ t = .i64) ∧ a = t.least w ∧ b = -1
    · rw [if_pos hmin, if_pos hmin]
    · rw [if_neg hmin, if_neg hmin, ha.sdiv_ofInt h hs hb (not_and_or.1 (hover.not.2 hmin))]
      rfl
  | false =>
    obtain rfl : .divU = code := by
      simpa [operatorFor?, Ty.isFloat_of_isIntegral h, hs] using hcode
    have hmin : ¬ ((t = .i32 ∨ t = .i64) ∧ a = t.least w ∧ b = -1) := by
      rintro ⟨rfl | rfl, -⟩ <;> cases hs
    simp only [Code.BinaryOp.onInts, Source.BinaryOp.trap?, hzero, if_neg hmin]
    by_cases hb₀ : b = 0
    · rw [if_pos hb₀, if_pos hb₀]
    · rw [if_neg hb₀, if_neg hb₀, ha.udiv_ofInt h hs hb]
      rfl

/-- A remainder has the sign of the dividend, unless there is none. -/
private theorem eval_mod (h : t.isIntegral) (hcode : operatorFor? .mod t = some code)
    (ha : t.InRange w a) (hb : t.InRange w b) :
    code.eval (t.encode w a) (t.encode w b) =
      match Source.BinaryOp.mod.trap? w t a b with
      | some reason => .error reason
      | none => .ok (t.encode w (a.tmod b)) := by
  have hzero : BitVec.ofInt (t.intSlot w).bits b = 0 ↔ b = 0 := hb.eq_zero_iff h
  rw [eval_encode]
  -- A remainder traps over zero only, signed or not.
  cases hs : t.isSigned with
  | true =>
    obtain rfl : .remS = code := by
      simpa [operatorFor?, Ty.isFloat_of_isIntegral h, hs] using hcode
    simp only [Code.BinaryOp.onInts, Source.BinaryOp.trap?, hzero, ha.srem_ofInt h hs hb]
    split <;> rfl
  | false =>
    obtain rfl : .remU = code := by
      simpa [operatorFor?, Ty.isFloat_of_isIntegral h, hs] using hcode
    simp only [Code.BinaryOp.onInts, Source.BinaryOp.trap?, hzero, ha.umod_ofInt h hs hb]
    split <;> rfl

/-- A pattern stands for the number that it is read as. -/
private theorem ofInt_eq_encode (x : BitVec (t.intSlot w).bits) :
    Value.ofInt (t.intSlot w) x = t.encode w x.toInt := by
  rw [Ty.encode, BitVec.ofInt_toInt]

/-- The operator of code for an operator that is no comparison: only quotients can trap, and the
    result has the pattern of the exact one. -/
theorem eval_arithmetic (h : t.isIntegral) (hcode : operatorFor? op t = some code)
    (ha : t.InRange w a) (hb : t.InRange w b) (hop : op.isComparison = false) :
    match op.trap? w t a b with
    | some reason => code.eval (t.encode w a) (t.encode w b) = .error reason
    | none => ∃ r, code.eval (t.encode w a) (t.encode w b) = .ok (t.encode w r) ∧
      ∀ e, op.result? a b = some e → r = e := by
  have hfloat := Ty.isFloat_of_isIntegral h
  cases op with
  | div =>
    rw [eval_div h hcode ha hb]
    split
    · rfl
    · exact ⟨_, rfl, fun e he => Option.some.inj he⟩
  | mod =>
    rw [eval_mod h hcode ha hb]
    split
    · rfl
    · exact ⟨_, rfl, fun e he => Option.some.inj he⟩
  | add | sub | mul | bitAnd | bitOr | bitXor =>
    simp only [operatorFor?, hfloat, Bool.false_eq_true, if_false, Option.some.injEq] at hcode
    -- These operators work modulo the width of the slot, and so do their patterns.
    subst hcode
    refine ⟨_, ?_, fun e he => Option.some.inj he⟩
    rw [eval_encode]
    simp only [Code.BinaryOp.onInts, Ty.encode, BitVec.ofInt_add, ofInt_sub,
      BitVec.ofInt_mul, ofInt_land, ofInt_lor, ofInt_xor]
  | shiftLeft | shiftRight | shiftRightUnsigned =>
    -- Nothing is said of the result but that there is one.
    have hpattern : ∃ x, code.onInts (.ofInt (t.intSlot w)) (BitVec.ofInt _ a)
        (BitVec.ofInt _ b) = .ok (.ofInt (t.intSlot w) x) := by
      simp only [operatorFor?, hfloat, Bool.false_eq_true, if_false, Option.some.injEq] at hcode
      subst hcode
      cases t.isSigned <;> exact ⟨_, rfl⟩
    obtain ⟨x, hx⟩ := hpattern
    refine ⟨x.toInt, ?_, fun e he => by cases he⟩
    rw [eval_encode, hx, ofInt_eq_encode]
  | and | or => cases hcode
  | eq | ne | lt | le | gt | ge => cases hop

end

/-! ## Compiled operators -/

section

open Weir.Source (Span)
open Reported (unreported_pure unreported_report_bind)

variable {w : PointerWidth} {op : Source.BinaryOp} {left right : Operand} {lc rc : Compiled}
  {expected : Ty} {span : Span}

/-- An integer is converted implicitly where that keeps all numbers, or it is reported. -/
private theorem convertImplicit_unreported {n : Node} {s t : Ty} (hs : s.isIntegral) :
    (convertImplicit w n s t span).Unreported fun m => m = coerce w n s t ∧ lossless w s t := by
  have hvoid : s.isVoid = false := Ty.isVoid_of_isIntegral hs
  unfold convertImplicit checkImplicit
  rw [hvoid]
  cases hloss : lossless w s t with
  | true => exact fun _ => ⟨rfl, rfl⟩
  | false => exact unreported_report_bind

/-- Two integral types meet at an integral type. -/
private theorem isIntegral_unify {s t : Ty} (hs : s.isIntegral) (ht : t.isIntegral) :
    (unify w s t).isIntegral := by
  cases s <;> first
    | exact absurd hs (by decide)
    | (cases t <;> first | exact absurd ht (by decide) | (cases w <;> decide))

/-- The type that two integers are calculated with has the numbers of both. -/
theorem compileStrict_unreported (hl : ∀ t, left.compile t = pure lc)
    (hr : ∀ t, right.compile t = pure rc) (hleft : left.isLiteral = false)
    (hright : right.isLiteral = false) (hs : lc.ty.isIntegral) (ht : rc.ty.isIntegral) :
    (compileStrict w op left right expected span).Unreported fun c =>
      ∃ operand code, operand.isIntegral ∧ (op.isComparison = false → operand.isInteger) ∧
        operatorFor? op operand = some code ∧ lossless w lc.ty operand ∧
        lossless w rc.ty operand ∧
        c = let node := .binary code (operand.slot w) (coerce w lc.node lc.ty operand)
              (coerce w rc.node rc.ty operand)
            if op.isComparison then ⟨node, .bool⟩ else ⟨normalize node operand, operand⟩ := by
  have hcommon := isIntegral_unify (w := w) hs ht
  unfold compileStrict
  simp only [hl, hr, hleft, hright, Bool.false_eq_true, if_false, Operand.retype, and_false]
  -- Variables compile to the same code whatever is expected of them.
  refine (unreported_pure (P := (lc = ·)) rfl).bind ?_
  rintro _ rfl
  refine (unreported_pure (P := (rc = ·)) rfl).bind ?_
  rintro _ rfl
  generalize unify w _ _ = common at hcommon
  rw [Ty.isVoid_of_isIntegral hcommon, if_neg (by decide)]
  refine (unreported_pure (P := (lc = ·)) rfl).bind ?_
  rintro _ rfl
  refine (unreported_pure (P := (rc = ·)) rfl).bind ?_
  rintro _ rfl
  -- Truth values are calculated with as `i32`, but compared as they are.
  have hoperand : (if decide (common = .bool) && !op.isComparison then Ty.i32
      else common).isIntegral := by
    split
    · rfl
    · exact hcommon
  have hinteger : op.isComparison = false →
      (if decide (common = .bool) && !op.isComparison then Ty.i32 else common).isInteger := by
    intro hop
    by_cases hbool : common = .bool
    · simp [hbool, hop, Ty.isInteger]
    · simpa [hbool, Ty.isIntegral] using hcommon
  generalize (if decide (common = .bool) && !op.isComparison then Ty.i32 else common) = operand
    at hoperand hinteger
  cases hcode : operatorFor? op operand with
  | none => exact poisoned_unreported
  | some code =>
    refine (convertImplicit_unreported hs).bind ?_
    rintro _ ⟨rfl, hfrom⟩
    refine (convertImplicit_unreported ht).bind ?_
    rintro _ ⟨rfl, hto⟩
    exact unreported_pure ⟨operand, code, hoperand, hinteger, hcode, hfrom, hto, rfl⟩

end

section

variable {σ : Type} {call : Nat → List Value → Run σ (Option Value)} {clock : Nat}
  {st : Machine.State σ}
  {ctx : Context} {v : Variable} {u : Value} {n : Int}

/-- Reading a variable yields the value of its local. -/
private theorem evalNode_readVariable {w : PointerWidth} (hlocal : st.locals[v.index]? = some u) :
    evalNode call clock (readVariable w v).node st = .ok (some u) st := by
  simp only [readVariable, evalNode, Run.getLocal, Run.bind_apply, hlocal]
  rfl

variable {w : PointerWidth} {s t : Ty} {op : Source.BinaryOp} {l r : Node} {a b : Int}

/-- Operands that are converted to a type that has all their numbers are applied as they are. -/
private theorem evalNode_operands {operand : Ty} (code : Code.BinaryOp) (hs : s.isIntegral)
    (ht : t.isIntegral) (hoperand : operand.isIntegral) (ha : s.InRange w a) (hb : t.InRange w b)
    (ha' : operand.InRange w a) (hb' : operand.InRange w b)
    (hl : evalNode call clock l st = .ok (some (s.encode w a)) st)
    (hr : evalNode call clock r st = .ok (some (t.encode w b)) st) :
    evalNode call clock (.binary code (operand.slot w) (coerce w l s operand)
      (coerce w r t operand)) st =
        match code.eval (operand.encode w a) (operand.encode w b) with
        | .ok x => .ok (some x) st
        | .error reason => .error (.trap reason) st := by
  have hleft := evalNode_coerce hs hoperand ha hl
  have hright := evalNode_coerce ht hoperand hb hr
  rw [Ty.convert_of_inRange hoperand ha'] at hleft
  rw [Ty.convert_of_inRange hoperand hb'] at hright
  exact evalNode_binary hleft hright

/-- The truth test of a number asks whether it is zero. -/
private theorem evalNode_truth (hs : s.isIntegral) (ha : s.InRange w a)
    (hl : evalNode call clock l st = .ok (some (s.encode w a)) st) :
    evalNode call clock (coerce w l s .bool) st = .ok (some (.ofBool (a != 0))) st := by
  rw [evalNode_coerce (t := .bool) hs rfl ha hl, Ty.convert, if_pos rfl,
    ofBool_eq_encode (w := w)]
  by_cases hzero : a = 0 <;> simp [hzero]

/-- Numbers are tested for being different from zero. -/
private theorem condition_coerce (hs : s.isIntegral) (ha : s.InRange w a)
    (hl : evalNode call clock l st = .ok (some (s.encode w a)) st) :
    Run.condition (evalNode call clock (coerce w l s .bool)) st = .ok (a != 0) st := by
  simp only [Run.condition, Run.value, Run.bind_apply, evalNode_truth hs ha hl, pure,
    EStateM.pure]
  cases a != 0 <;> rfl

/-- Code applies an operator to a number of one type and a number of another one. It tests what the
    operator tests of the numbers; what it calculates is the exact result, wrapped to a type that
    has all numbers of both types, and stands for it as any value of the type does. It traps where
    there is no such result, and nowhere else. -/
structure Compiled.Applies (c : Compiled) (w : PointerWidth) (op : Source.BinaryOp) (s t : Ty)
    (a b : Int) (run : Run σ (Option Value)) (st : Machine.State σ) : Prop where
  truth : ∀ p, op.truth? a b = some p → run st = .ok (some (.ofBool p)) st
  covers : ∀ r, op.result? a b = some r →
    ∀ n, s.InRange w n ∨ t.InRange w n → c.ty.InRange w n
  result : ∀ r, op.result? a b = some r → op.trap? w c.ty a b = none →
    ∃ z, run st = .ok (some z) st ∧ c.ty.Holds w z (c.ty.wrap w r)
  traps : ∀ reason, op.trap? w c.ty a b = some reason → run st = .error (.trap reason) st
  yields : op.trap? w c.ty a b = none → ∃ z, run st = .ok (some z) st

/-- A truth value is no number, and needs nothing of its operands. -/
private theorem result?_of_truth? {p : Bool} (hp : op.truth? a b = some p) (t : Ty) :
    op.result? a b = none ∧ op.trap? w t a b = none := by
  cases op <;> first | exact ⟨rfl, rfl⟩ | cases hp

/-- Code that tests what its operator tests applies it. -/
private theorem Compiled.Applies.of_truth? {c : Compiled} {run : Run σ (Option Value)} {p : Bool}
    (hp : op.truth? a b = some p) (hrun : run st = .ok (some (.ofBool p)) st) :
    c.Applies w op s t a b run st := by
  obtain ⟨hresult, htrap⟩ := result?_of_truth? (w := w) hp c.ty
  refine ⟨fun p' hp' => ?_, fun r hr => ?_, fun r hr => ?_, fun reason hreason => ?_,
    fun _ => ⟨_, hrun⟩⟩
  · rw [hp] at hp'
    cases hp'
    exact hrun
  · rw [hresult] at hr
    cases hr
  · rw [hresult] at hr
    cases hr
  · rw [htrap] at hreason
    cases hreason

/-- A node that traps does so when it is normalized, too. -/
private theorem evalNode_normalize_error {n : Node} {e : Machine.Exit}
    (h : evalNode call clock n st = .error e st) :
    evalNode call clock (normalize n t) st = .error e st := by
  cases t <;> simp only [normalize, evalNode, Run.value, Run.bind_apply, h]

variable {left right : Operand} {lc rc : Compiled} {expected : Ty} {span : Source.Span}

/-- Operators that evaluate both operands. -/
private theorem compileStrict_applies (hl : ∀ t, left.compile t = pure lc)
    (hr : ∀ t, right.compile t = pure rc) (hleft : left.isLiteral = false)
    (hright : right.isLiteral = false) (hs : lc.ty.isIntegral) (ht : rc.ty.isIntegral)
    (ha : lc.ty.InRange w a) (hb : rc.ty.InRange w b)
    (hlc : evalNode call clock lc.node st = .ok (some (lc.ty.encode w a)) st)
    (hrc : evalNode call clock rc.node st = .ok (some (rc.ty.encode w b)) st) :
    (compileStrict w op left right expected span).Unreported fun c =>
      c.Applies w op lc.ty rc.ty a b (evalNode call clock c.node) st := by
  intro hquiet
  obtain ⟨operand, code, hoperand, hinteger, hcode, hfrom, hto, hc⟩ :=
    compileStrict_unreported hl hr hleft hright hs ht hquiet
  have hsrange := (Ty.lossless_iff hs hoperand).1 hfrom
  have htrange := (Ty.lossless_iff ht hoperand).1 hto
  have hrun := evalNode_operands code hs ht hoperand ha hb (hsrange a ha)
    (htrange b hb) hlc hrc
  dsimp only at hc
  rw [hc]
  -- A comparison yields its truth value as it is, and a calculation is normalized.
  cases hop : op.isComparison with
  | true =>
    rw [if_pos rfl]
    obtain ⟨p, hp⟩ : ∃ p, op.truth? a b = some p := by
      cases op <;> first | exact ⟨_, rfl⟩ | cases hop
    rw [eval_comparison hoperand hcode (hsrange a ha) (htrange b hb) hp] at hrun
    exact .of_truth? hp hrun
  | false =>
    rw [if_neg (by decide)]
    have htruth : op.truth? a b = none := by
      cases op <;> first | rfl | (cases hop; done) | cases hcode
    have hvalue := eval_arithmetic hoperand hcode (hsrange a ha) (htrange b hb) hop
    refine ⟨fun p hp => ?_, fun r _ n hn => hn.elim (hsrange n) (htrange n), ?_, ?_, ?_⟩
    · rw [htruth] at hp
      cases hp
    · intro r hr htrap
      dsimp only at htrap
      rw [htrap] at hvalue
      obtain ⟨r', heval, hresult⟩ := hvalue
      rw [heval] at hrun
      rw [← hresult r hr]
      exact ⟨_, evalNode_normalize (hinteger hop) hrun, Ty.inRange_wrap hoperand, rfl⟩
    · intro reason htrap
      dsimp only at htrap
      rw [htrap] at hvalue
      dsimp only at hvalue
      rw [hvalue] at hrun
      exact evalNode_normalize_error hrun
    · intro htrap
      dsimp only at htrap
      rw [htrap] at hvalue
      obtain ⟨r', heval, -⟩ := hvalue
      rw [heval] at hrun
      exact ⟨_, evalNode_normalize (hinteger hop) hrun⟩

/-- Operators that may leave their right operand out. -/
private theorem evalNode_compileLogical (isAnd : Bool) (hl : ∀ t, left.compile t = pure lc)
    (hr : ∀ t, right.compile t = pure rc) (hs : lc.ty.isIntegral) (ht : rc.ty.isIntegral)
    (ha : lc.ty.InRange w a) (hb : rc.ty.InRange w b)
    (hlc : evalNode call clock lc.node st = .ok (some (lc.ty.encode w a)) st)
    (hrc : evalNode call clock rc.node st = .ok (some (rc.ty.encode w b)) st) :
    evalNode call clock (compileLogical w isAnd left right).value.node st =
      .ok (some (.ofBool (if isAnd then a != 0 && b != 0 else a != 0 || b != 0))) st := by
  have hcond := condition_coerce hs ha hlc
  have hright := evalNode_truth ht hb hrc
  simp only [compileLogical, Operand.condition, Reported.value_bind, convertExplicit_value, hl, hr,
    Reported.value_pure]
  -- The right operand is run only if the left one leaves the answer open.
  cases isAnd with
  | true =>
    simp only [if_true, evalNode, Run.bind_apply, hcond]
    cases a != 0 with
    | true => exact hright
    | false => rfl
  | false =>
    simp only [Bool.false_eq_true, if_false, evalNode, Run.bind_apply, hcond]
    cases a != 0 with
    | true => rfl
    | false => exact hright

/-- Operators on two variables of integer types or `bool` are exact, if nothing is reported. -/
theorem compile_binary_applies (call : Nat → List Value → Run σ (Option Value)) (clock : Nat)
    (st : Machine.State σ) {x y : String} {vx vy : Variable} {u v : Value} {sx sy : Source.Span}
    (hx : ctx.bindings.find? x = some vx) (hy : ctx.bindings.find? y = some vy)
    (hs : vx.ty.isIntegral) (ht : vy.ty.isIntegral)
    (hu : st.locals[vx.index]? = some u) (hv : st.locals[vy.index]? = some v)
    (ha : vx.ty.Holds ctx.width u a) (hb : vy.ty.Holds ctx.width v b)
    (hquiet : (compile ctx (.binary span op (.name sx x) (.name sy y)) expected).reports = []) :
    let c := (compile ctx (.binary span op (.name sx x) (.name sy y)) expected).value
    c.Applies ctx.width op vx.ty vy.ty a b (evalNode call clock c.node) st := by
  obtain ⟨ha, rfl⟩ := ha
  obtain ⟨hb, rfl⟩ := hb
  have hread {w : PointerWidth} {v : Variable} {u : Value} (hu : st.locals[v.index]? = some u) :
      evalNode call clock (readVariable w v).node st = .ok (some u) st := evalNode_readVariable hu
  have hl : ∀ t, (Operand.ofExpr ctx (.name sx x)).compile t =
      pure (readVariable ctx.width vx) := by
    intro t
    simp only [Operand.ofExpr, compile, hx]
  have hr : ∀ t, (Operand.ofExpr ctx (.name sy y)).compile t =
      pure (readVariable ctx.width vy) := by
    intro t
    simp only [Operand.ofExpr, compile, hy]
  have hlogical (isAnd : Bool) :=
    evalNode_compileLogical isAnd hl hr hs ht ha hb (hread hu) (hread hv)
  simp only [compile] at hquiet ⊢
  -- The logical operators choose between branches, all others are strict.
  cases op with
  | and => exact .of_truth? rfl (hlogical true)
  | or => exact .of_truth? rfl (hlogical false)
  | _ => exact compileStrict_applies hl hr rfl rfl hs ht ha hb (hread hu) (hread hv) hquiet

/-- Variables of a small signed type and of a wide unsigned one. -/
def unlike : Context :=
  { width := .w32, functions := {},
    bindings := [[("x", ⟨0, .i8, false⟩), ("y", ⟨1, .u32, false⟩)]] }

/-- Their difference is a number of neither type, and right all the same. -/
theorem unlike_difference :
    let r := compile unlike (.binary .empty .sub (.name .empty "x") (.name .empty "y")) .void
    let st : Machine.State Unit := ⟨[.i32 (-1), .i32 (-1)], none, 0, ()⟩
    r.reports = [] ∧ Ty.i8.Holds .w32 (.i32 (-1)) (-1) ∧
      Ty.u32.Holds .w32 (.i32 (-1)) 4294967295 ∧ r.value.ty = .i64 ∧
      ∃ z, evalNode (fun _ _ => Run.trap .unreachable) 0 r.value.node st = .ok (some z) st ∧
        Ty.i64.Holds .w32 z (-4294967296) := by
  intro r st
  have hx : Ty.i8.Holds .w32 (.i32 (-1)) (-1) := ⟨by decide, rfl⟩
  have hy : Ty.u32.Holds .w32 (.i32 (-1)) 4294967295 := ⟨by decide, rfl⟩
  have hfindx : unlike.bindings.find? "x" = some ⟨0, .i8, false⟩ := rfl
  have hfindy : unlike.bindings.find? "y" = some ⟨1, .u32, false⟩ := rfl
  have hquiet : r.reports = [] := rfl
  have happlies := compile_binary_applies (fun _ _ => Run.trap .unreachable) 0 st hfindx hfindy
    rfl rfl rfl rfl hx hy hquiet
  exact ⟨hquiet, hx, hy, rfl, happlies.result _ rfl rfl⟩

end

end Weir.Lowering
