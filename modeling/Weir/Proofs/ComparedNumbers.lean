import Weir.Proofs.IntegerOperators
import Weir.Proofs.LiteralPositions
import Weir.Proofs.NumberLine
import Weir.Proofs.PureExpressions

/-!
# Comparing numbers of different types

The values of all types stand for numbers on one line, integers and truth values as well as
floating-point numbers. An implicit conversion does not move a number, and an operator that compares
two values of a type compares their positions. So it does not matter in which type two numbers are
compared.

## Key results

- `Ty.exists_liesAt`: the values of a type that has values stand for something
- `convertValue_liesAt`: implicit conversions keep the positions of numbers
- `eval_holds`: operators of code compare positions
-/

namespace Weir.Source

open Weir.Code (Value)

namespace BinaryOp

/-- Whether a comparison holds of two positions. What is not a number only differs from everything,
    and also from itself. -/
def Holds (op : BinaryOp) (p q : Option Position) : Prop :=
  match op with
  | eq => ∃ a, p = some a ∧ q = some a
  | ne => ¬ ∃ a, p = some a ∧ q = some a
  | lt => ∃ a b, p = some a ∧ q = some b ∧ a < b
  | le => ∃ a b, p = some a ∧ q = some b ∧ a ≤ b
  | gt => ∃ a b, p = some a ∧ q = some b ∧ b < a
  | ge => ∃ a b, p = some a ∧ q = some b ∧ b ≤ a
  | _ => False

end BinaryOp

namespace Ty

/-- The value of a type stands for the number in a position, or is a floating-point value that is
    not a number and has no position. -/
def LiesAt (w : PointerWidth) (t : Ty) (v : Value) (p : Option Position) : Prop :=
  match t with
  | .void => False
  | .f32 => ∃ x : Single, v = .f32 x ∧ x.position? = p
  | .f64 => ∃ x : Double, v = .f64 x ∧ x.position? = p
  | t => ∃ n : Int, t.Holds w v n ∧ p = some (.ofRat n)

variable {w : PointerWidth} {t : Ty} {v : Value} {p : Option Position} {n : Int}

/-- A value of an integral type lies where the number does that it holds. -/
theorem liesAt_of_isIntegral (h : t.isIntegral) :
    t.LiesAt w v p ↔ ∃ n : Int, t.Holds w v n ∧ p = some (.ofRat n) := by
  cases t <;> first | exact Iff.rfl | exact absurd h (by decide)

theorem isVoid_or_isIntegral_or_isFloat (t : Ty) : t.isVoid ∨ t.isIntegral ∨ t.isFloat := by
  cases t <;> decide

/-- Values of a type have positions. -/
theorem exists_liesAt (hvoid : t.isVoid = false) (hslot : v.slot = t.slot w) (h : t.Contains v) :
    ∃ p, t.LiesAt w v p := by
  rcases isVoid_or_isIntegral_or_isFloat t with hv | hi | hf
  · rw [hvoid] at hv
    cases hv
  · obtain ⟨n, hn⟩ := exists_holds hi hslot h
    exact ⟨_, (liesAt_of_isIntegral hi).2 ⟨n, hn, rfl⟩⟩
  · cases t with
    | f32 =>
      cases v with
      | f32 x => exact ⟨_, x, rfl, rfl⟩
      | _ => cases hslot
    | f64 =>
      cases v with
      | f64 x => exact ⟨_, x, rfl, rfl⟩
      | _ => cases hslot
    | _ => cases hf

end Ty

end Weir.Source

namespace Weir.Lowering

open Weir.Code (Value)
open Weir.Machine
open Weir.Source (BinaryOp PointerWidth Ty)

variable {w : PointerWidth} {s t : Ty} {v : Value} {p q : Option Position} {n : Int}

/-! ## Conversions -/

/-- Conversions between integral types. -/
private theorem convertValue_holds (hs : s.isIntegral) (ht : t.isIntegral) (hv : s.Holds w v n) :
    convertValue w s t (some v) = .ok (some (t.encode w (t.convert w n))) := by
  -- The code of a conversion does the same.
  let call : Nat → List Value → Run Unit (Option Value) := fun _ _ => Run.trap .unreachable
  let st : Machine.State Unit := ⟨[], none, 0, ()⟩
  have hconst : evalNode call 0 (.const v) = pure (some v) := by simp only [evalNode]
  have hyields : evalNode call 0 (.const v) st = .ok (some (s.encode w n)) st := by
    rw [hconst, hv.eq_encode]
    rfl
  have hrun := evalNode_coerce hs ht hv.inRange hyields
  rw [evalNode_convertValue, hconst, pure_bind] at hrun
  cases hconvert : convertValue w s t (some v) with
  | ok u =>
    rw [hconvert] at hrun
    cases hrun
    rfl
  | error reason =>
    rw [hconvert] at hrun
    cases hrun

/-- Types that an implicit conversion to an integral type may start from. -/
private theorem isIntegral_of_lossless (ht : t.isIntegral) (hs : s.isVoid = false)
    (h : lossless w s t) : s.isIntegral := by
  revert ht hs h
  cases w <;> cases s <;> cases t <;> decide

/-- Integral types that have no more digits than the significands of a floating-point type. -/
private theorem bits_of_lossless (hs : s.isIntegral) (h : lossless w s t) :
    (t = .f32 → s.bits w ≤ 16) ∧ (t = .f64 → s.bits w ≤ 32) := by
  revert hs h
  cases w <;> cases s <;> cases t <;> decide

/-- A number of a type is no longer than the type has bits. -/
private theorem natAbs_le_of_inRange (h : s.InRange w n) : n.natAbs ≤ 2 ^ s.bits w := by
  have hpow : (2 : Int) ^ (s.bits w - 1) ≤ 2 ^ s.bits w :=
    pow_le_pow_right₀ (by decide) (Nat.sub_le _ _)
  have habs : (n.natAbs : Int) ≤ (2 ^ s.bits w : Nat) := by
    push_cast
    -- Signed types end at half of the numbers, unsigned ones one before the power.
    cases hs : s.isSigned with
    | true =>
      obtain ⟨hlo, hhi⟩ := (Ty.inRange_of_isSigned hs).1 h
      rw [abs_le]
      omega
    | false =>
      obtain ⟨hlo, hhi⟩ := (Ty.inRange_of_not_isSigned hs).1 h
      rw [abs_le]
      omega
  exact_mod_cast habs

/-- The conversion of an integer reads it as the integer that it stands for. -/
private theorem eval_convert (target : Code.FloatSlot) (hs : s.isIntegral) (hv : s.Holds w v n) :
    (Code.Conversion.convert target (s.intSlot w) s.isSigned).eval v =
      .ok (.ofFloat target (Binary.ofInt n)) := by
  obtain ⟨hrange, rfl⟩ := hv
  -- The operator reads the pattern with the sign of the type that it comes from, and so reads the
  -- number.
  have hread : (if s.isSigned then (BitVec.ofInt (s.intSlot w).bits n).toInt
      else ((BitVec.ofInt (s.intSlot w).bits n).toNat : Int)) = n := by
    cases hsign : s.isSigned with
    | true => exact hrange.toInt_ofInt hs hsign
    | false => exact hrange.toNat_ofInt hs hsign
  have hpattern : (s.encode w n).toInt? (s.intSlot w) = some (BitVec.ofInt _ n) := by
    unfold Ty.encode
    cases s.intSlot w <;> rfl
  simp only [Code.Conversion.eval, hpattern, Option.map_some]
  rw [hread]

/-- The conversion of an integral value to a float is the one operator. -/
private theorem convertValue_of_eval {u : Value} (hs : s.isIntegral) (ht : t.isFloat)
    (h : (Code.Conversion.convert t.floatSlot (s.intSlot w) s.isSigned).eval v = .ok u) :
    convertValue w s t (some v) = .ok (some u) := by
  have hmove : convertValue w s t (some v) =
      onPresent (Code.Conversion.convert t.floatSlot (s.intSlot w) s.isSigned).eval (some v) >>=
        .ok := by
    cases t with
    | f32 | f64 => cases s <;> first | exact absurd hs (by decide) | (cases w <;> rfl)
    | _ => cases ht
  have hvalue : onPresent (Code.Conversion.convert t.floatSlot (s.intSlot w) s.isSigned).eval
      (some v) = .ok (some u) := by
    change Code.Conversion.eval _ v >>= (fun r => pure (some r)) = _
    rw [h]
    rfl
  rw [hmove, hvalue]
  rfl

/-- An integer becomes the floating-point number that it is. -/
private theorem convertValue_float (hs : s.isIntegral) (ht : t.isFloat) (h : lossless w s t)
    (hv : s.Holds w v n) :
    ∃ u, convertValue w s t (some v) = .ok (some u) ∧ t.LiesAt w u (some (.ofRat n)) := by
  obtain ⟨hsingle, hdouble⟩ := bits_of_lossless hs h
  have hdigits := natAbs_le_of_inRange hv.inRange
  refine ⟨_, convertValue_of_eval hs ht (eval_convert t.floatSlot hs hv), ?_⟩
  -- A lossless conversion starts from few enough bits for the fraction of the float.
  cases t with
  | f32 =>
    have hpow : 2 ^ s.bits w ≤ 2 ^ 16 := Nat.pow_le_pow_right (by decide) (hsingle rfl)
    refine ⟨_, rfl, Binary.position?_ofInt (f := .single) (k := 149) (by decide) (by decide) ?_⟩
    rw [Format.single_fractionBits]
    omega
  | f64 =>
    have hpow : 2 ^ s.bits w ≤ 2 ^ 32 := Nat.pow_le_pow_right (by decide) (hdouble rfl)
    refine ⟨_, rfl, Binary.position?_ofInt (f := .double) (k := 1074) (by decide) (by decide) ?_⟩
    rw [Format.double_fractionBits]
    omega
  | _ => cases ht

/-- An implicit conversion does not move a number. -/
theorem convertValue_liesAt (hs : s.isVoid = false) (ht : t.isVoid = false) (h : lossless w s t)
    (hv : s.LiesAt w v p) : ∃ u, convertValue w s t (some v) = .ok (some u) ∧ t.LiesAt w u p := by
  -- An integral target holds the number itself, and a float is exact for it.
  rcases Ty.isVoid_or_isIntegral_or_isFloat t with hvoid | hi | hf
  · rw [ht] at hvoid
    cases hvoid
  · have hsi := isIntegral_of_lossless hi hs h
    obtain ⟨n, hn, rfl⟩ := (Ty.liesAt_of_isIntegral hsi).1 hv
    have hrange := (Ty.lossless_iff hsi hi).1 h n hn.inRange
    refine ⟨_, convertValue_holds hsi hi hn, (Ty.liesAt_of_isIntegral hi).2 ⟨n, ⟨hrange, ?_⟩, rfl⟩⟩
    rw [Ty.convert_of_inRange hi hrange]
  · rcases Ty.isVoid_or_isIntegral_or_isFloat s with hvoid | hsi | hsf
    · rw [hs] at hvoid
      cases hvoid
    · obtain ⟨n, hn, rfl⟩ := (Ty.liesAt_of_isIntegral hsi).1 hv
      exact convertValue_float hsi hf h hn
    · cases s with
      | f32 =>
        cases t with
        | f32 => exact ⟨v, rfl, hv⟩
        | f64 =>
          obtain ⟨x, rfl, rfl⟩ := hv
          exact ⟨.f64 x.convert, rfl, _, rfl, Binary.position?_convert x⟩
        | _ => cases hf
      | f64 =>
        cases t with
        | f64 => exact ⟨v, rfl, hv⟩
        | f32 => cases w <;> exact absurd h (by decide)
        | _ => cases hf
      | _ => cases hsf

/-! ## Comparisons -/

/-- An operator on floating-point numbers. -/
private theorem onFloats_holds {f : Format} (hf : 0 < f.infinity) (inject : Binary f → Value)
    {op : BinaryOp} {code : Code.BinaryOp} (hcode : operatorFor? op t = some code)
    (ht : t.isFloat) (hop : op.isComparison) (x y : Binary f) :
    ∃ b : Bool, code.onFloats inject x y = .ok (.ofBool b) ∧
      (b ↔ op.Holds x.position? y.position?) := by
  simp only [operatorFor?, ht, if_true] at hcode
  -- Greater than is less than with the sides exchanged.
  cases op with
  | eq =>
    cases hcode
    exact ⟨_, rfl, Binary.eq_iff hf⟩
  | ne =>
    cases hcode
    refine ⟨_, rfl, ?_⟩
    rw [Bool.not_eq_true', ← Bool.not_eq_true, Binary.eq_iff hf]
    rfl
  | lt =>
    cases hcode
    exact ⟨_, rfl, Binary.lt_iff hf⟩
  | le =>
    cases hcode
    exact ⟨_, rfl, Binary.le_iff hf⟩
  | gt =>
    cases hcode
    refine ⟨_, rfl, ?_⟩
    rw [Binary.lt_iff hf]
    constructor
    · rintro ⟨a, b, ha, hb, h⟩
      exact ⟨b, a, hb, ha, h⟩
    · rintro ⟨b, a, hb, ha, h⟩
      exact ⟨a, b, ha, hb, h⟩
  | ge =>
    cases hcode
    refine ⟨_, rfl, ?_⟩
    rw [Binary.le_iff hf]
    constructor
    · rintro ⟨a, b, ha, hb, h⟩
      exact ⟨b, a, hb, ha, h⟩
    · rintro ⟨b, a, hb, ha, h⟩
      exact ⟨a, b, ha, hb, h⟩
  | _ => cases hop

/-- Numbers compare as their positions do. -/
private theorem truth?_holds {op : BinaryOp} (hop : op.isComparison) (m n : Int) :
    ∃ r, op.truth? m n = some r ∧ (r ↔ op.Holds (some (.ofRat m)) (some (.ofRat n))) := by
  have hlt (a b : Int) : Position.ofRat a < .ofRat b ↔ a < b :=
    Position.ofRat_lt_ofRat.trans Int.cast_lt
  have heq (a b : Int) : Position.ofRat a = .ofRat b ↔ a = b :=
    Position.ofRat_inj.trans Int.cast_inj
  have hle (a b : Int) : Position.ofRat a ≤ .ofRat b ↔ a ≤ b := by
    rw [← not_lt, hlt, not_lt]
  cases op with
  | eq | ne =>
    refine ⟨_, rfl, ?_⟩
    simp [BinaryOp.Holds, heq, eq_comm (b := n)]
  | lt | le | gt | ge =>
    refine ⟨_, rfl, ?_⟩
    simp [BinaryOp.Holds, hlt, hle]
  | _ => cases hop

/-- The operator of code for a comparison compares positions. -/
theorem eval_holds {op : BinaryOp} {code : Code.BinaryOp} {a b : Value}
    (hop : op.isComparison) (hcode : operatorFor? op t = some code)
    (ha : t.LiesAt w a p) (hb : t.LiesAt w b q) :
    ∃ r : Bool, code.eval a b = .ok (.ofBool r) ∧ (r ↔ op.Holds p q) := by
  -- Integral values are compared as numbers, floats by their positions.
  rcases Ty.isVoid_or_isIntegral_or_isFloat t with hv | hi | hf
  · cases t with
    | void => exact ha.elim
    | _ => cases hv
  · obtain ⟨m, hm, rfl⟩ := (Ty.liesAt_of_isIntegral hi).1 ha
    obtain ⟨n, hn, rfl⟩ := (Ty.liesAt_of_isIntegral hi).1 hb
    obtain ⟨r, hr, hiff⟩ := truth?_holds hop m n
    refine ⟨r, ?_, hiff⟩
    rw [hm.eq_encode, hn.eq_encode]
    exact eval_comparison hi hcode hm.inRange hn.inRange hr
  · cases t with
    | f32 =>
      obtain ⟨x, rfl, rfl⟩ := ha
      obtain ⟨y, rfl, rfl⟩ := hb
      exact onFloats_holds (by decide) .f32 hcode hf hop x y
    | f64 =>
      obtain ⟨x, rfl, rfl⟩ := ha
      obtain ⟨y, rfl, rfl⟩ := hb
      exact onFloats_holds (by decide) .f64 hcode hf hop x y
    | _ => cases hf

end Weir.Lowering
