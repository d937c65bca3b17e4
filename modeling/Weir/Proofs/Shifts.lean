import Weir.Proofs.LiteralPositions
import Weir.Proofs.IntegerOperators
import Weir.Proofs.ResolvedExpressions

/-!
# Shifts

The operators of code shift the bits of a slot, those of the source the bits of a type. The two
differ where a type is smaller than its slot: there the slot holds the number itself, and above the
bits of the type it has copies of the sign. A shift to the left leaves those behind in the end, and
so does one to the right that brings the sign in. `>>>` is compiled to the shift of the slot that
brings zeros in. For a negative number of a small signed type these stay above the bits of the type,
so that the operator does what `>>` does.

## Key results

- `ofInt_shiftLeft`, `ofInt_sshiftRight`, `ofInt_ushiftRight`: shifts of patterns as numbers
- `wrap_ushiftRight`: what is left of a shift of the slot in the bits of the type
- `compile_shift`: the three shifts on operands of one integer type
-/

namespace Weir

section

variable {w k : Nat} {n : Int}

/-- Shifting the bits to the left multiplies the number. -/
theorem ofInt_shiftLeft : BitVec.ofInt w n <<< k = BitVec.ofInt w (n * 2 ^ k) := by
  have htwo : BitVec.ofInt w (2 ^ k) = BitVec.twoPow w k := by
    apply BitVec.eq_of_toNat_eq
    rw [BitVec.toNat_twoPow, ← Nat.cast_ofNat, ← Nat.cast_pow, BitVec.ofInt_natCast,
      BitVec.toNat_ofNat]
  rw [BitVec.ofInt_mul, htwo, BitVec.shiftLeft_eq_mul_twoPow]

/-- Shifting with the sign divides a number in range, rounding down. -/
theorem ofInt_sshiftRight (h : (BitVec.ofInt w n).toInt = n) :
    (BitVec.ofInt w n).sshiftRight k = BitVec.ofInt w (n / 2 ^ k) := by
  rw [← BitVec.ofInt_toInt (x := (BitVec.ofInt w n).sshiftRight k), BitVec.toInt_sshiftRight, h,
    Int.shiftRight_eq_div_pow]
  norm_cast

/-- Shifting without the sign divides the number that the bits stand for. -/
theorem ofInt_ushiftRight :
    BitVec.ofInt w n >>> k = BitVec.ofInt w (n % 2 ^ w / 2 ^ k) := by
  -- Without a sign the bits are the remainder of the number.
  have hbits : ((BitVec.ofInt w n).toNat : Int) = n % 2 ^ w := by
    rw [BitVec.toNat_ofInt, Int.toNat_of_nonneg (Int.emod_nonneg _ (by positivity))]
    norm_cast
  rw [← ofInt_toNat (BitVec.ofInt w n >>> k), BitVec.toNat_ushiftRight,
    Nat.shiftRight_eq_div_pow, ← hbits]
  norm_cast

end

end Weir

namespace Weir.Source

/-- What a shift makes of a number of an integer type. -/
def BinaryOp.shifted? (w : PointerWidth) (op : BinaryOp) (t : Ty) (x : Int) (k : Nat) :
    Option Int :=
  match op with
  | shiftLeft => some (t.wrap w (x * 2 ^ k))
  | shiftRight => some (x / 2 ^ k)
  | shiftRightUnsigned =>
    -- Small negative numbers have ones above the bits of their type, which come in first.
    if (t = .i8 ∨ t = .i16) ∧ x < 0 then some (x / 2 ^ k)
    else some (t.wrap w (x % 2 ^ t.bits w / 2 ^ k))
  | _ => none

namespace Ty

variable {w : PointerWidth} {t : Ty} {x : Int} {k : Nat}

/-- A quotient by a power of two lies between the number and zero, or minus one. -/
private theorem InRange.ediv (h : t.isIntegral) (hx : t.InRange w x) : t.InRange w (x / 2 ^ k) := by
  have hpos : (1 : Int) ≤ 2 ^ k := one_le_pow₀ (by decide)
  obtain ⟨hzlo, hzhi⟩ := inRange_zero (w := w) h
  obtain ⟨hlo, hhi⟩ := hx
  by_cases hsign : 0 ≤ x
  · have hnonneg := Int.ediv_nonneg hsign (by omega : (0 : Int) ≤ 2 ^ k)
    have hle := Int.ediv_le_self (2 ^ k) hsign
    exact ⟨by omega, by omega⟩
  · have hneg : x / 2 ^ k < 0 := Int.ediv_neg_of_neg_of_pos (by omega) (by omega)
    have hge : x ≤ x / 2 ^ k := by
      rw [Int.le_ediv_iff_mul_le (by omega)]
      exact mul_le_of_one_le_right (by omega) hpos
    exact ⟨by omega, by omega⟩

/-- A number of a type that is not negative has the same bits in the type and in the slot. -/
private theorem InRange.emod_of_nonneg (h : t.isIntegral) (hx : t.InRange w x) (h₀ : 0 ≤ x) :
    x % 2 ^ t.bits w = x ∧ x % 2 ^ (t.intSlot w).bits = x := by
  have hpow : (2 : Int) ^ t.bits w ≤ 2 ^ (t.intSlot w).bits :=
    pow_le_pow_right₀ (by decide) (bits_le_intSlot h)
  have hlt : x < 2 ^ t.bits w := by
    cases hs : t.isSigned with
    | true =>
      have hhalf : (2 : Int) ^ (t.bits w - 1) ≤ 2 ^ t.bits w :=
        pow_le_pow_right₀ (by decide) (by omega)
      exact ((inRange_of_isSigned hs).1 hx).2.trans_le hhalf
    | false => exact ((inRange_of_not_isSigned hs).1 hx).2
  exact ⟨Int.emod_eq_of_lt h₀ hlt, Int.emod_eq_of_lt h₀ (hlt.trans_le hpow)⟩

/-- What is left in the bits of a type after zeros were shifted into the slot. The zeros get there
    only if the type fills its slot or the number is not negative. -/
theorem wrap_ushiftRight (h : t.isIntegral) (hx : t.InRange w x) (hk : k < t.bits w) :
    t.wrap w (x % 2 ^ (t.intSlot w).bits / 2 ^ k) =
      if (t = i8 ∨ t = i16) ∧ x < 0 then x / 2 ^ k
      else t.wrap w (x % 2 ^ t.bits w / 2 ^ k) := by
  by_cases hsmall : (t = i8 ∨ t = i16) ∧ x < 0
  · rw [if_pos hsmall]
    obtain ⟨htype, hneg⟩ := hsmall
    have hslot : (t.intSlot w).bits = 32 := by rcases htype with rfl | rfl <;> rfl
    have hbits : t.bits w ≤ 16 := by rcases htype with rfl | rfl <;> simp [bits]
    have hlow := (hx.of_bits_lt (by omega)).1
    -- The ones above the bits of the type are so many that they end up above them again.
    have hones : x % 2 ^ 32 = x + 2 ^ (32 - k) * 2 ^ k := by
      rw [← pow_add, Nat.sub_add_cancel (by omega)]
      omega
    rw [hslot, hones, Int.add_mul_ediv_right _ _ (by positivity)]
    have hcongr : x / 2 ^ k + 2 ^ (32 - k) ≡ x / 2 ^ k [ZMOD 2 ^ t.bits w] := by
      have hdvd : (2 : Int) ^ t.bits w ∣ 2 ^ (32 - k) := pow_dvd_pow _ (by omega)
      simpa using (Int.modEq_zero_iff_dvd.2 hdvd).add_left (x / 2 ^ k)
    rw [wrap_congr hcongr, wrap_of_inRange h (hx.ediv h)]
  · rw [if_neg hsmall]
    by_cases hsign : 0 ≤ x
    · obtain ⟨htype, hslot⟩ := hx.emod_of_nonneg h hsign
      rw [htype, hslot]
    · -- Only signed types have negative numbers, and the other ones of them fill their slots.
      have hfull : t.bits w = (t.intSlot w).bits := by
        have hsigned : t.isSigned := by
          cases hs : t.isSigned with
          | true => rfl
          | false => exact absurd ((inRange_of_not_isSigned hs).1 hx).1 hsign
        cases t with
        | i8 | i16 => exact absurd ⟨by simp, by omega⟩ hsmall
        | i32 | i64 => rfl
        | void | bool | u8 | u16 | u32 | u64 | usize => cases hsigned
        | f32 | f64 => cases h
      rw [hfull]

end Ty

end Weir.Source

namespace Weir.Lowering

open Weir.Code (Node Value)
open Weir.Machine (Run evalNode evalNode_binary)
open Weir.Source (BinaryOp Expr PointerWidth Span Ty)

/-! ## Operators of code -/

section

variable {w : PointerWidth} {t : Ty} {code : Code.BinaryOp} {x : Int} {k : Nat}

/-- The count of a shift is smaller than the slot, and stays as it is. -/
private theorem toNat_count (h : t.isIntegral) (hk : k < t.bits w) :
    (BitVec.ofInt (t.intSlot w).bits k).toNat % (t.intSlot w).bits = k := by
  have hroom := hk.trans_le (Ty.bits_le_intSlot h)
  have hlt : k < 2 ^ (t.intSlot w).bits := hroom.trans Nat.lt_two_pow_self
  rw [BitVec.ofInt_natCast, BitVec.toNat_ofNat, Nat.mod_eq_of_lt hlt, Nat.mod_eq_of_lt hroom]

/-- A shift to the left multiplies, and wraps around later. -/
private theorem eval_shiftLeft (h : t.isIntegral) (hcode : operatorFor? .shiftLeft t = some code)
    (hk : k < t.bits w) :
    code.eval (t.encode w x) (t.encode w k) = .ok (t.encode w (x * 2 ^ k)) := by
  simp only [operatorFor?, Ty.isFloat_of_isIntegral h, Bool.false_eq_true, if_false,
    Option.some.injEq] at hcode
  subst hcode
  rw [eval_encode, Code.BinaryOp.onInts]
  simp only [toNat_count h hk, ofInt_shiftLeft]
  rfl

/-- Types with a sign shift it in, types without one shift in zeros. -/
private theorem eval_shiftRight (h : t.isIntegral) (hcode : operatorFor? .shiftRight t = some code)
    (hx : t.InRange w x) (hk : k < t.bits w) :
    code.eval (t.encode w x) (t.encode w k) = .ok (t.encode w (x / 2 ^ k)) := by
  -- The operator is chosen by the sign of the type.
  cases hs : t.isSigned with
  | true =>
    simp only [operatorFor?, Ty.isFloat_of_isIntegral h, hs, if_true, Bool.false_eq_true, if_false,
      Option.some.injEq] at hcode
    subst hcode
    rw [eval_encode, Code.BinaryOp.onInts]
    simp only [toNat_count h hk, ofInt_sshiftRight (hx.toInt_ofInt h hs)]
    rfl
  | false =>
    simp only [operatorFor?, Ty.isFloat_of_isIntegral h, hs, Bool.false_eq_true, if_false,
      Option.some.injEq] at hcode
    subst hcode
    have hnonneg := ((Ty.inRange_of_not_isSigned hs).1 hx).1
    rw [eval_encode, Code.BinaryOp.onInts]
    simp only [toNat_count h hk, ofInt_ushiftRight, (hx.emod_of_nonneg h hnonneg).2]
    rfl

/-- Every type shifts zeros into its slot. -/
private theorem eval_shiftRightUnsigned (h : t.isIntegral)
    (hcode : operatorFor? .shiftRightUnsigned t = some code) (hk : k < t.bits w) :
    code.eval (t.encode w x) (t.encode w k) =
      .ok (t.encode w (x % 2 ^ (t.intSlot w).bits / 2 ^ k)) := by
  simp only [operatorFor?, Ty.isFloat_of_isIntegral h, Bool.false_eq_true, if_false,
    Option.some.injEq] at hcode
  subst hcode
  rw [eval_encode, Code.BinaryOp.onInts]
  simp only [toNat_count h hk, ofInt_ushiftRight]
  rfl

end

/-- A shift of a number of an integer type has the pattern of the exact result. -/
private theorem eval_shift {op : BinaryOp} {n : Int} (h : t.isIntegral)
    (hcode : operatorFor? op t = some code) (hx : t.InRange w x) (hk : k < t.bits w)
    (hn : op.shifted? w t x k = some n) :
    ∃ r, code.eval (t.encode w x) (t.encode w k) = .ok (t.encode w r) ∧ t.wrap w r = n := by
  cases op with
  | shiftLeft => exact ⟨_, eval_shiftLeft h hcode hk, Option.some.inj hn⟩
  | shiftRight =>
    refine ⟨_, eval_shiftRight h hcode hx hk, ?_⟩
    -- A quotient is in range as it is.
    rw [Ty.wrap_of_inRange h (hx.ediv h)]
    exact Option.some.inj hn
  | shiftRightUnsigned =>
    refine ⟨_, eval_shiftRightUnsigned h hcode hk, ?_⟩
    rw [Ty.wrap_ushiftRight h hx hk]
    simp only [BinaryOp.shifted?] at hn
    split at hn
    next hsmall => rw [if_pos hsmall, Option.some.inj hn]
    next hsmall => rw [if_neg hsmall, Option.some.inj hn]
  | _ => cases hn

/-! ## Compiled shifts -/

section

variable {w : PointerWidth} {op : BinaryOp} {left right : Operand} {expected t : Ty} {span : Span}

/-- A literal is compiled again for the type that suits both operands, and other operands are
    kept. -/
private theorem retype_value (e : Operand) (hint common : Ty) :
    (e.retype (e.compile hint).value common).value =
      (e.compile (if (e.compile hint).value.ty ≠ common ∧ e.isLiteral then common
        else hint)).value := by
  unfold Operand.retype
  split <;> rfl

/-- An operator that is defined on the type in which its operands meet is compiled to code that
    applies it to both of them, even if something is reported. -/
private theorem compileStrict_value {code : Code.BinaryOp}
    (hvoid : (meeting w op left right expected).operand.isVoid = false)
    (hcode : operatorFor? op (meeting w op left right expected).operand = some code) :
    let m := meeting w op left right expected
    let l := (left.compile m.left).value
    let r := (right.compile m.right).value
    (compileStrict w op left right expected span).value =
      ⟨operatorNode w op m.operand code (coerce w l.node l.ty m.operand)
        (coerce w r.node r.ty m.operand), if op.isComparison then .bool else m.operand⟩ := by
  intro m l r
  have hl : l = (left.compile m.left).value := rfl
  have hr : r = (right.compile m.right).value := rfl
  clear_value l r
  unfold compileStrict
  simp only [Reported.value_bind]
  revert hvoid hcode
  simp only [m, meeting] at hl hr ⊢
  rw [← retype_value] at hl hr
  generalize unify w _ _ = common at *
  intro hvoid hcode
  -- If there were no common type there would be no type to operate in.
  have hcommon : common.isVoid = false := by
    by_contra h
    cases common <;> first | exact h rfl | exact absurd hvoid (by simp [Ty.isVoid])
  rw [hcommon, if_neg (by decide)]
  simp only [Reported.value_bind, hcode, convertImplicit_value, ← hl, ← hr, operatorNode]
  split <;> rfl

/-- Code of a type is used as it is where the type is asked for. -/
private theorem coerce_of_resolve_eq {n : Node} {s t : Ty} (h : s.resolve w = t.resolve w) :
    coerce w n s t = n := by
  rw [coerce, h, coerceResolved, if_pos rfl]

/-- Both operands of an operator are of a type: that is the type of their code, and the one in which
    they meet. -/
structure OperandsOf (w : PointerWidth) (op : BinaryOp) (left right : Operand) (expected t : Ty) :
    Prop where
  leftTy : (left.compile (meeting w op left right expected).left).value.ty.resolve w = t.resolve w
  rightTy :
    (right.compile (meeting w op left right expected).right).value.ty.resolve w = t.resolve w
  operand : (meeting w op left right expected).operand = t.resolve w

/-- Expressions are operands of the type that both have, where it is an integer type. -/
private theorem operandsOf {ctx : Context} {l r : Expr} (ht : t.isInteger)
    (hop : op.isComparison = false)
    (hl : (compile ctx l expected).value.ty.resolve ctx.width = t.resolve ctx.width)
    (hr : (compile ctx r (if isLiteral l then expected else
      (compile ctx l expected).value.ty)).value.ty.resolve ctx.width = t.resolve ctx.width) :
    OperandsOf ctx.width op (.ofExpr ctx l) (.ofExpr ctx r) expected t := by
  -- A literal of the right type is not compiled again.
  have hkept (e : Expr) (hint : Ty)
      (he : (compile ctx e hint).value.ty.resolve ctx.width = t.resolve ctx.width) :
      ¬ ((compile ctx e hint).value.ty ≠ t.resolve ctx.width ∧ isLiteral e) := by
    rintro ⟨hne, hliteral⟩
    rw [resolve_compile_of_isLiteral e hliteral] at he
    exact hne he
  have hunify (s s' : Ty) (hs : s.resolve ctx.width = t.resolve ctx.width)
      (hs' : s'.resolve ctx.width = t.resolve ctx.width) :
      unify ctx.width s s' = t.resolve ctx.width := by
    simp [unify, hs, hs']
  have hbool : t.resolve ctx.width ≠ .bool := by
    cases t <;> first | (cases ctx.width <;> decide) | cases ht
  have hmeeting : meeting ctx.width op (.ofExpr ctx l) (.ofExpr ctx r) expected =
      ⟨expected, if isLiteral l then expected else (compile ctx l expected).value.ty,
        t.resolve ctx.width⟩ := by
    simp only [meeting, Operand.ofExpr, hop, Bool.false_eq_true, if_false, hunify _ _ hl hr,
      if_neg (hkept l _ hl), if_neg (hkept r _ hr), hbool, decide_false, Bool.false_and]
  exact ⟨by rw [hmeeting]; exact hl, by rw [hmeeting]; exact hr, by rw [hmeeting]⟩

/-- Shifts are defined on every integer type, and the same for one that is resolved. -/
private theorem exists_operatorFor?_of_shift {x n : Int} {k : Nat} (h : t.isIntegral)
    (hn : op.shifted? w t x k = some n) :
    ∃ code, operatorFor? op t = some code ∧ operatorFor? op (t.resolve w) = some code := by
  cases t with
  | void | f32 | f64 => cases h
  | _ => cases op <;> first | cases hn; done | (cases w <;> exact ⟨_, rfl, rfl⟩)

section

variable {σ : Type} {call : Nat → List Value → Run σ (Option Value)} {clock : Nat}
  {st st₁ st₂ : Machine.State σ} {ctx : Context} {l r : Expr} {u v : Value} {x n : Int} {k : Nat}

/-- A shift evaluates its operands and applies it to their numbers. -/
private theorem compileStrict_shift (ht : t.isInteger)
    (hops : OperandsOf w op left right expected t)
    (hl : evalNode call clock (left.compile (meeting w op left right expected).left).value.node st =
      .ok (some (t.encode w x)) st₁)
    (hr : evalNode call clock (right.compile (meeting w op left right expected).right).value.node
      st₁ = .ok (some (t.encode w k)) st₂)
    (hx : t.InRange w x) (hk : k < t.bits w) (hn : op.shifted? w t x k = some n) :
    let c := (compileStrict w op left right expected span).value
    c.ty = t.resolve w ∧ t.InRange w n ∧
      evalNode call clock c.node st = .ok (some (t.encode w n)) st₂ := by
  have hintegral : t.isIntegral := Ty.isIntegral_of_isInteger ht
  have hcomparison : op.isComparison = false := by
    cases op <;> first | rfl | cases hn
  have hvoid : (t.resolve w).isVoid = false := by
    rw [Ty.isVoid_resolve]
    exact Ty.isVoid_of_isIntegral hintegral
  obtain ⟨code, hcode, hcode'⟩ := exists_operatorFor?_of_shift hintegral hn
  obtain ⟨y, heval, hy⟩ := eval_shift hintegral hcode hx hk hn
  obtain ⟨hleft, hright, hoperand⟩ := hops
  generalize hlc : (left.compile (meeting w op left right expected).left).value = lc at hl hleft
  generalize hrc : (right.compile (meeting w op left right expected).right).value = rc at hr hright
  -- Both operands are in the type already, so nothing is converted.
  have hc : (compileStrict w op left right expected span).value =
      ⟨normalize (.binary code ((t.resolve w).slot w) lc.node rc.node) (t.resolve w),
        t.resolve w⟩ := by
    refine (compileStrict_value (hoperand ▸ hvoid) (hoperand ▸ hcode')).trans ?_
    rw [hlc, hrc, hoperand, coerce_of_resolve_eq (by rw [hleft, Ty.resolve_resolve]),
      coerce_of_resolve_eq (by rw [hright, Ty.resolve_resolve]), operatorNode, hcomparison,
      if_neg (by decide), if_neg (by decide)]
  have hnode : evalNode call clock (.binary code ((t.resolve w).slot w) lc.node rc.node) st =
      .ok (some ((t.resolve w).encode w y)) st₂ := by
    rw [evalNode_binary hl hr, heval, Ty.encode_resolve]
  -- What the operator yields is wrapped around in the type.
  have hnormalized := evalNode_normalize (by rwa [Ty.isInteger_resolve]) hnode
  rw [Ty.encode_resolve, Ty.wrap_resolve, hy] at hnormalized
  rw [hc]
  exact ⟨rfl, hy ▸ Ty.inRange_wrap hintegral, hnormalized⟩

/-- Shifts on operands of one integer type, by less than the bits of the type: `<<` multiplies by a
    power of two and wraps, `>>` divides by it and rounds down, and `>>>` does so with the bits of
    the number read without a sign, except that it does what `>>` does to a negative number of
    `i8` or `i16`. -/
theorem compile_shift (call : Nat → List Value → Run σ (Option Value)) (clock : Nat)
    (ht : t.isInteger)
    (hops : OperandsOf ctx.width op (.ofExpr ctx l) (.ofExpr ctx r) expected t)
    (hl : let m := meeting ctx.width op (.ofExpr ctx l) (.ofExpr ctx r) expected
      evalNode call clock (compile ctx l m.left).value.node st = .ok (some u) st₁)
    (hr : let m := meeting ctx.width op (.ofExpr ctx l) (.ofExpr ctx r) expected
      evalNode call clock (compile ctx r m.right).value.node st₁ = .ok (some v) st₂)
    (hx : t.Holds ctx.width u x) (hk : t.Holds ctx.width v k) (hcount : k < t.bits ctx.width)
    (hn : op.shifted? ctx.width t x k = some n) :
    let c := (compile ctx (.binary span op l r) expected).value
    c.ty = t.resolve ctx.width ∧
      ∃ z, evalNode call clock c.node st = .ok (some z) st₂ ∧ t.Holds ctx.width z n := by
  obtain ⟨hx, rfl⟩ := hx
  obtain ⟨-, rfl⟩ := hk
  -- Every shift runs both sides.
  have hstrict : compile ctx (.binary span op l r) expected =
      compileStrict ctx.width op (.ofExpr ctx l) (.ofExpr ctx r) expected span := by
    simp only [compile]
    cases op <;> first | rfl | cases hn
  rw [hstrict]
  obtain ⟨hty, hrange, hrun⟩ := compileStrict_shift ht hops hl hr hx hcount hn
  exact ⟨hty, _, hrun, hrange, rfl⟩

/-- A variable of the type and one for the count of a shift. -/
def counted (t : Ty) : Context :=
  { width := .w32, functions := {}, bindings := [[("x", ⟨0, t, false⟩), ("k", ⟨1, t, false⟩)]] }

/-- Of minus one, only the highest bits are left, as a number that is not negative. -/
theorem word_shift :
    let c := (compile (counted .i32) (.binary .empty .shiftRightUnsigned (.name .empty "x")
      (.name .empty "k")) .void).value
    let st : Machine.State Unit := ⟨[.i32 (-1), .i32 28], none, 0, ()⟩
    ∃ z, evalNode (fun _ _ => Run.trap .unreachable) 0 c.node st = .ok (some z) st ∧
      Ty.i32.Holds .w32 z 15 := by
  intro c st
  have hx : Ty.i32.Holds .w32 (.i32 (-1)) (-1) := ⟨by decide, rfl⟩
  have hk : Ty.i32.Holds .w32 (.i32 28) (28 : Nat) := ⟨by decide, rfl⟩
  have hops : OperandsOf (counted .i32).width .shiftRightUnsigned
      (.ofExpr (counted .i32) (.name .empty "x")) (.ofExpr (counted .i32) (.name .empty "k"))
      .void .i32 :=
    operandsOf rfl rfl rfl rfl
  have hl : evalNode (fun _ _ => Run.trap .unreachable) 0
      (compile (counted .i32) (.name .empty "x") .void).value.node st =
        .ok (some (.i32 (-1))) st := rfl
  have hr : evalNode (fun _ _ => Run.trap .unreachable) 0
      (compile (counted .i32) (.name .empty "k") .i32).value.node st =
        .ok (some (.i32 28)) st := rfl
  exact (compile_shift (fun _ _ => Run.trap .unreachable) 0 rfl hops hl hr hx hk (by decide)
    rfl).2

/-- Shifted by one, minus one of a byte is left as it is, while zeros at the front of its bits make
    it the greatest number of its type. -/
theorem byte_shift :
    let r := compile (counted .i8) (.binary .empty .shiftRightUnsigned (.name .empty "x")
      (.name .empty "k")) .void
    let st : Machine.State Unit := ⟨[.i32 (-1), .i32 1], none, 0, ()⟩
    r.reports = [] ∧ Ty.i8.Holds .w32 (.i32 (-1)) (-1) ∧ Ty.i8.Holds .w32 (.i32 1) 1 ∧
      evalNode (fun _ _ => Run.trap .unreachable) 0 r.value.node st = .ok (some (.i32 (-1))) st ∧
      Ty.i8.wrap .w32 ((-1) % 2 ^ Ty.i8.bits .w32 / 2 ^ 1) = 127 :=
  ⟨rfl, ⟨by decide, rfl⟩, ⟨by decide, rfl⟩, rfl, by decide⟩

end

end

end Weir.Lowering
