import Weir.Proofs.Integers
import Weir.Proofs.RunInvariant

/-!
# Conversions between integer types

A conversion moves a number to the slot of its target, with the sign of its source, and normalizes
it if the target is small and might not have the number. Each part is followed on the patterns that
the numbers are kept as. Together they keep a number that the target has, and otherwise wrap it; the
conversion to `bool` tests the number instead.

## Key results

- `evalNode_changeSlot`, `evalNode_normalize`, `evalNode_truthTest`: the parts of a conversion
- `evalNode_coerce`: what a conversion makes of the number that its operand yields
- `evalNode_coerce_const`: the number after a conversion, and the conversions that keep all numbers
-/

namespace Weir.Machine

open Weir.Code Run

variable {σ : Type} {call : Nat → List Value → Run σ (Option Value)} {clock : Nat}
  {s s₁ s₂ : State σ} {l r n : Node} {u v x : Value}

/-- An operator is applied to the values of its operands. -/
theorem evalNode_binary {op : BinaryOp} {slot : Slot}
    (hl : evalNode call clock l s = .ok (some u) s₁)
    (hr : evalNode call clock r s₁ = .ok (some v) s₂) :
    evalNode call clock (.binary op slot l r) s =
      match op.eval u v with
      | .ok x => .ok (some x) s₂
      | .error reason => .error (.trap reason) s₂ := by
  simp only [evalNode, value, bind_apply, hl, hr, pure, EStateM.pure]
  cases op.eval u v <;> rfl

/-- A conversion is applied to the value of its operand. -/
theorem evalNode_convert {c : Conversion} (h : evalNode call clock n s = .ok (some u) s₁)
    (hc : c.eval u = .ok x) : evalNode call clock (.convert c n) s = .ok (some x) s₁ := by
  simp only [evalNode, value, bind_apply, h, pure, EStateM.pure, hc]
  rfl

end Weir.Machine

namespace Weir.Source.Ty

open Weir.Code (IntSlot Value)

variable {w : PointerWidth} {s t : Ty} {n m : Int}

variable (w) in
/-- What a conversion makes of a number: `bool` takes any number but zero for one. -/
def convert (t : Ty) (n : Int) : Int :=
  if t = bool then (if n = 0 then 0 else 1) else t.wrap w n

/-- Converting to `usize` is converting to the type that it stands for. -/
@[simp] theorem convert_resolve : (t.resolve w).convert w n = t.convert w n := by
  have hbool : t.resolve w = bool ↔ t = bool := by
    cases w <;> cases t <;> decide
  simp [convert, hbool]

/-- A conversion keeps the numbers that the target has. -/
theorem convert_of_inRange (h : t.isIntegral) (hn : t.InRange w n) : t.convert w n = n := by
  unfold convert
  split
  next hbool =>
    subst hbool
    obtain ⟨hlo, hhi⟩ := (inRange_of_not_isSigned rfl).1 hn
    simp only [bits, pow_one] at hhi
    split <;> omega
  next => exact wrap_of_inRange h hn

/-- A converted number is in the range of its type. -/
theorem inRange_convert (h : t.isIntegral) : t.InRange w (t.convert w n) := by
  unfold convert
  split
  next hbool =>
    subst hbool
    split <;> (cases w <;> decide)
  next => exact inRange_wrap h

end Weir.Source.Ty

namespace Weir.Lowering

open Weir.Code (Node Value IntSlot)
open Weir.Machine (Run evalNode evalNode_binary evalNode_convert)
open Weir.Source (PointerWidth Ty)

variable {σ : Type} {call : Nat → List Value → Run σ (Option Value)} {clock : Nat}
  {st st₁ : Machine.State σ} {node : Node} {w : PointerWidth} {s t : Ty} {n : Int}

/-! ## Operators on patterns -/

/-- A type with a slot of 32 bits is encoded there. -/
private theorem encode_of_i32 (h : t.intSlot w = .i32) :
    t.encode w n = .i32 (BitVec.ofInt 32 n) := by
  rw [Ty.encode, h]
  rfl

private theorem encode_of_i64 (h : t.intSlot w = .i64) :
    t.encode w n = .i64 (BitVec.ofInt 64 n) := by
  rw [Ty.encode, h]
  rfl

/-- Operators on integers work on patterns. -/
theorem eval_encode (op : Code.BinaryOp) (a b : Int) :
    op.eval (t.encode w a) (t.encode w b) =
      op.onInts (.ofInt (t.intSlot w)) (BitVec.ofInt _ a) (BitVec.ofInt _ b) := by
  unfold Ty.encode
  cases t.intSlot w <;> rfl

/-- The zero of a slot is the encoding of zero. -/
private theorem zero?_slot (h : t.isIntegral) : Value.zero? (t.slot w) = some (t.encode w 0) := by
  cases t <;> first | exact absurd h (by decide) | (cases w <;> rfl)

/-- Patterns of a type differ if the numbers do. -/
private theorem eval_ne {a b : Int} (h : t.isIntegral) (ha : t.InRange w a) (hb : t.InRange w b) :
    Code.BinaryOp.ne.eval (t.encode w a) (t.encode w b) = .ok (.ofBool (a != b)) := by
  have hbne : (BitVec.ofInt (t.intSlot w).bits a != BitVec.ofInt _ b) = (a != b) := by
    rw [Bool.eq_iff_iff, bne_iff_ne, bne_iff_ne, Ne, ha.ofInt_inj h hb]
  rw [eval_encode, Code.BinaryOp.onInts, hbne]

/-- Extending a word reads it with the sign of its type. -/
private theorem eval_extend (ht : t.intSlot w = .i64) (hs : s.intSlot w = .i32) (h : s.isIntegral)
    (hn : s.InRange w n) :
    (Code.Conversion.extend s.isSigned).eval (s.encode w n) = .ok (t.encode w n) := by
  rw [encode_of_i32 hs, encode_of_i64 ht]
  cases hsign : s.isSigned with
  | true =>
    have hroom := hn.of_isSigned h hsign
    rw [hs] at hroom
    exact congrArg (Except.ok ∘ Value.i64)
      (signExtend_ofInt (by decide) (by decide) hroom.1 hroom.2)
  | false =>
    have hroom := hn.of_not_isSigned h hsign
    rw [hs] at hroom
    exact congrArg (Except.ok ∘ Value.i64) (setWidth_ofInt_of_le (by decide) hroom.1 hroom.2)

/-- Wrapping a long word keeps the number up to the width of the slot. -/
private theorem eval_wrap (ht : t.intSlot w = .i32) (hs : s.intSlot w = .i64) :
    Code.Conversion.wrap.eval (s.encode w n) = .ok (t.encode w n) := by
  rw [encode_of_i64 hs, encode_of_i32 ht]
  exact congrArg (Except.ok ∘ Value.i32) (setWidth_ofInt_of_ge (by decide))

/-- A truth value is the encoding of zero or one. -/
theorem ofBool_eq_encode (b : Bool) : Value.ofBool b = Ty.bool.encode w (if b then 1 else 0) := by
  cases b <;> rfl

/-! ## The parts of a conversion -/

/-- Moving a number between slots keeps it, as far as the new slot has room. -/
theorem evalNode_changeSlot (hs : s.isIntegral) (ht : t.isIntegral) (hn : s.InRange w n)
    (h : evalNode call clock node st = .ok (some (s.encode w n)) st₁) :
    evalNode call clock (changeSlot w node s t) st = .ok (some (t.encode w n)) st₁ := by
  simp only [changeSlot, Ty.isFloat_of_isIntegral hs, Ty.isFloat_of_isIntegral ht, Bool.and_self,
    Bool.false_eq_true, if_false]
  cases hsi : s.intSlot w <;> cases hti : t.intSlot w
  case i32.i64 => exact evalNode_convert h (eval_extend hti hsi hs hn)
  case i64.i32 => exact evalNode_convert h (eval_wrap hti hsi)
  case i32.i32 => rwa [encode_of_i32 hti, ← encode_of_i32 hsi]
  case i64.i64 => rwa [encode_of_i64 hti, ← encode_of_i64 hsi]

/-- Testing a number yields whether it is not zero. -/
theorem evalNode_truthTest (hs : s.isIntegral) (hn : s.InRange w n)
    (h : evalNode call clock node st = .ok (some (s.encode w n)) st₁) :
    evalNode call clock (truthTest node (s.slot w)) st = .ok (some (.ofBool (n != 0))) st₁ := by
  rw [truthTest, zero?_slot hs]
  refine (evalNode_binary h (by rfl)).trans ?_
  rw [eval_ne hs hn (Ty.inRange_zero hs)]

/-- Normalizing brings a number into the range of an integer type. -/
theorem evalNode_normalize (ht : t.isInteger)
    (h : evalNode call clock node st = .ok (some (t.encode w n)) st₁) :
    evalNode call clock (normalize node t) st = .ok (some (t.encode w (t.wrap w n))) st₁ := by
  cases t with
  | void | bool | f32 | f64 => cases ht
  | i8 =>
    exact evalNode_convert h
      (congrArg (Except.ok ∘ Value.i32) (signExtend_setWidth_ofInt (by decide) (by decide)))
  | i16 =>
    exact evalNode_convert h
      (congrArg (Except.ok ∘ Value.i32) (signExtend_setWidth_ofInt (by decide) (by decide)))
  | u8 =>
    have hmask : Code.BinaryOp.and.eval (Ty.u8.encode w n) (.i32 (BitVec.ofInt 32 0xff)) =
        .ok (Ty.u8.encode w (Ty.u8.wrap w n)) :=
      congrArg (Except.ok ∘ Value.i32) (ofInt_and_mask (v := 32) (k := 8) (by decide))
    rw [normalize, evalNode_binary h rfl, hmask]
  | u16 =>
    have hmask : Code.BinaryOp.and.eval (Ty.u16.encode w n) (.i32 (BitVec.ofInt 32 0xffff)) =
        .ok (Ty.u16.encode w (Ty.u16.wrap w n)) :=
      congrArg (Except.ok ∘ Value.i32) (ofInt_and_mask (v := 32) (k := 16) (by decide))
    rw [normalize, evalNode_binary h rfl, hmask]
  | i32 | u32 | i64 | u64 | usize =>
    -- These types fill their slots.
    rw [Ty.encode_wrap (Ty.bits_eq_intSlot rfl (by cases w <;> decide))]
    exact h

/-! ## Conversions -/

/-- A conversion between fixed-width types yields what it makes of the number. -/
private theorem evalNode_coerceResolved (hs : s.isIntegral) (ht : t.isIntegral)
    (hsr : s.resolve w = s) (htr : t.resolve w = t) (hn : s.InRange w n)
    (h : evalNode call clock node st = .ok (some (s.encode w n)) st₁) :
    evalNode call clock (coerceResolved w node s t) st =
      .ok (some (t.encode w (t.convert w n))) st₁ := by
  have hlossless : losslessResolved s t ↔ ∀ n, s.InRange w n → t.InRange w n := by
    have hiff := Ty.lossless_iff (w := w) hs ht
    rwa [lossless, hsr, htr] at hiff
  simp only [coerceResolved, Ty.isVoid_of_isIntegral hs, Ty.isVoid_of_isIntegral ht,
    Bool.false_eq_true, if_false]
  -- The cases are those of the conversion, which ends with the normal form of the target.
  split
  next heq =>
    subst heq
    rwa [Ty.convert_of_inRange hs hn]
  split
  next htb =>
    subst htb
    rw [evalNode_truthTest hs hn h, Ty.convert, if_pos rfl, ofBool_eq_encode (w := w)]
    by_cases hzero : n = 0 <;> simp [hzero]
  next hst htb =>
    have hmoved := evalNode_changeSlot hs ht hn h
    have hint : t.isInteger := by simpa [Ty.isIntegral, htb] using ht
    rw [Ty.convert, if_neg htb]
    split
    next => exact evalNode_normalize hint hmoved
    next hkept =>
      -- What is not normalized either fills its slot or has all numbers of the source.
      by_cases hbits : t.bits w < 32
      · have hall : losslessResolved s t := by simpa [hbits] using hkept
        rw [Ty.wrap_of_inRange ht (hlossless.1 hall n hn)]
        exact hmoved
      · rw [Ty.encode_wrap (Ty.bits_eq_intSlot ht hbits)]
        exact hmoved

/-- A conversion yields what it makes of the number. -/
theorem evalNode_coerce (hs : s.isIntegral) (ht : t.isIntegral) (hn : s.InRange w n)
    (h : evalNode call clock node st = .ok (some (s.encode w n)) st₁) :
    evalNode call clock (coerce w node s t) st = .ok (some (t.encode w (t.convert w n))) st₁ := by
  rw [← Ty.encode_resolve, ← Ty.convert_resolve]
  exact evalNode_coerceResolved (by rwa [Ty.isIntegral_resolve]) (by rwa [Ty.isIntegral_resolve])
    (Ty.resolve_resolve w s) (Ty.resolve_resolve w t) (by rwa [Ty.inRange_resolve])
    (by rwa [Ty.encode_resolve])

/-- Converting a number to `bool` tests it, and converting it to an integer type yields the only
    number of the type with the same last bits. Conversions are lossless if they keep all numbers of
    their source. -/
theorem evalNode_coerce_const (call : Nat → List Value → Run σ (Option Value)) (clock : Nat)
    (st : Machine.State σ) (hs : s.isIntegral) (ht : t.isIntegral) :
    (∀ v n, s.Holds w v n → ∃ u m,
      evalNode call clock (coerce w (.const v) s t) st = .ok (some u) st ∧ t.Holds w u m ∧
      u.slot = t.slot w ∧ t.Contains u ∧
      (t = .bool → (m = 1 ↔ n ≠ 0)) ∧
      (t ≠ .bool → ∀ k, t.InRange w k ∧ k ≡ n [ZMOD 2 ^ t.bits w] ↔ k = m)) ∧
    (lossless w s t ↔ ∀ v n, s.Holds w v n → ∃ u,
      evalNode call clock (coerce w (.const v) s t) st = .ok (some u) st ∧ t.Holds w u n) := by
  have hconverts : ∀ v n, s.Holds w v n →
      evalNode call clock (coerce w (.const v) s t) st =
        .ok (some (t.encode w (t.convert w n))) st := by
    rintro v n ⟨hn, rfl⟩
    exact evalNode_coerce hs ht hn rfl
  constructor
  · intro v n hv
    have hholds : t.Holds w (t.encode w (t.convert w n)) (t.convert w n) :=
      ⟨Ty.inRange_convert ht, rfl⟩
    refine ⟨_, t.convert w n, hconverts v n hv, hholds, hholds.slot ht, hholds.contains ht, ?_, ?_⟩
    · rintro rfl
      by_cases hzero : n = 0 <;> simp [Ty.convert, hzero]
    · intro hbool k
      rw [← Ty.eq_wrap_iff ht, Ty.convert, if_neg hbool]
  · rw [Ty.lossless_iff hs ht]
    constructor
    · intro hall v n hv
      have hn := hall n hv.inRange
      refine ⟨_, hconverts v n hv, hn, ?_⟩
      rw [Ty.convert_of_inRange ht hn]
    -- A number of the source that the target lacks would not be held after the conversion.
    · intro hall n hn
      obtain ⟨u, -, hu⟩ := hall _ n ⟨hn, rfl⟩
      exact hu.inRange

/-- A negative number becomes the greatest one of a wider unsigned type. -/
theorem minus_one_widened :
    Ty.i8.isIntegral ∧ Ty.u16.isIntegral ∧ ¬ lossless .w32 .i8 .u16 ∧
      ∃ u, evalNode (fun _ _ => Run.trap .unreachable) 0
        (coerce .w32 (.const (.i32 (-1))) .i8 .u16) (⟨[], none, 0, ()⟩ : Machine.State Unit) =
          .ok (some u) ⟨[], none, 0, ()⟩ ∧ Ty.u16.Holds .w32 u 65535 := by
  have hconverts := evalNode_coerce_const (fun _ _ => Run.trap .unreachable) 0
    (⟨[], none, 0, ()⟩ : Machine.State Unit) (w := .w32) (s := .i8) (t := .u16) rfl rfl
  refine ⟨rfl, rfl, by decide, ?_⟩
  obtain ⟨u, m, hrun, hholds, -, -, -, honly⟩ := hconverts.1 (.i32 (-1)) (-1) ⟨by decide, rfl⟩
  obtain rfl : 65535 = m := (honly (by decide) 65535).1 ⟨by decide, by decide⟩
  exact ⟨u, hrun, hholds⟩

end Weir.Lowering
