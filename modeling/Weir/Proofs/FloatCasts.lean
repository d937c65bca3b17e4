import Weir.Proofs.ComparedNumbers

/-!
# Casts of floating-point numbers to integers

A cast truncates a floating-point number to the slot of its target, where numbers out of range go to
the nearest one in range. For a small type the result is then brought into the range of the type,
and this keeps its last bits only. So a cast saturates at the ends of a type that fills its slot,
and at the lower end of every unsigned type, while a small type wraps the other numbers that it does
not have.

## Key results

- `Binary.truncate_of_position?`: truncating an integer clamps it
- `Ty.slotClamp_eq_clamp_iff`: when clamping to the slot is clamping to the range
- `cast_float`: what a cast makes of an integer in a floating-point format
-/

namespace Weir

/-! ## Truncation -/

/-- An integer is clamped. -/
theorem Binary.truncate_of_position? {f : Format} {x : Binary f} {m lo hi : Int}
    (h : x.position? = some (.ofRat m)) : x.truncate lo hi = max lo (min hi m) := by
  obtain ⟨hnan, hplace⟩ := position?_eq_some.1 h
  have hinfinite : x.isInfinite = false := by
    by_contra hne
    rw [place_of_isInfinite (by simpa using hne)] at hplace
    cases hneg : x.negative <;> rw [hneg] at hplace
    · exact absurd (WithBot.coe_inj.1 hplace) WithTop.top_ne_coe
    · exact WithBot.bot_ne_coe hplace
  rw [place_of_not_isInfinite hinfinite, Position.ofRat_inj] at hplace
  -- The number is whole, so nothing is cut off.
  have hwhole : (if x.negative then -x.absRat.floor else x.absRat.floor) = m := by
    unfold toRat at hplace
    split at hplace
    next hneg =>
      have habs : x.absRat = ((-m : Int) : Rat) := by
        rw [Int.cast_neg, ← hplace, Rat.neg_neg]
      rw [if_pos hneg, habs, Rat.floor_intCast, Int.neg_neg]
    next hneg => rw [if_neg hneg, hplace, Rat.floor_intCast]
  unfold truncate
  rw [hnan, hinfinite, if_neg (by decide), if_neg (by decide)]
  exact congrArg (fun k => max lo (min hi k)) hwhole

namespace Source.Ty

open Weir.Code (IntSlot)

variable {w : PointerWidth} {t : Ty} {m : Int}

/-! ## Clamping -/

variable (w) in
/-- The number of an integral type that is nearest to another one. -/
def clamp (t : Ty) (m : Int) : Int := max (t.least w) (min (t.greatest w) m)

variable (w) in
/-- The number nearest to another one in the slot of an integral type, with the sign of the type. -/
def slotClamp (t : Ty) (m : Int) : Int :=
  max ((t.intSlot w).least t.isSigned) (min ((t.intSlot w).greatest t.isSigned) m)

@[simp] theorem slotClamp_resolve : (t.resolve w).slotClamp w m = t.slotClamp w m := by
  simp [slotClamp]

/-- The range of an integral type ends where its slot does if the type fills the slot. Otherwise the
    slot goes on above, and below if the type has a sign. -/
private theorem slot_bounds (h : t.isIntegral) :
    let lo := (t.intSlot w).least t.isSigned
    let hi := (t.intSlot w).greatest t.isSigned
    if t.bits w = (t.intSlot w).bits then lo = t.least w ∧ t.greatest w = hi
    else (if t.isSigned then lo < t.least w else lo = t.least w) ∧ t.greatest w < hi := by
  cases t <;> first | exact absurd h (by decide) | (cases w <;> decide)

/-- The range of an integral type is not empty. -/
private theorem least_le_greatest (h : t.isIntegral) : t.least w ≤ t.greatest w :=
  (inRange_zero h).1.trans (inRange_zero h).2

/-- A number that is clamped to a type is in its range. -/
theorem inRange_clamp (h : t.isIntegral) : t.InRange w (t.clamp w m) := by
  have hle := least_le_greatest (w := w) h
  unfold InRange clamp
  omega

/-- Clamping to the slot is clamping to the range if the type fills its slot, and else for numbers
    that are not outside of the range on a side where the slot goes on. -/
theorem slotClamp_eq_clamp_iff (h : t.isIntegral) :
    t.slotClamp w m = t.clamp w m ↔
      t.bits w = (t.intSlot w).bits ∨ (m ≤ t.greatest w ∧ (t.isSigned → t.least w ≤ m)) := by
  have hle := least_le_greatest (w := w) h
  have hends := slot_bounds (w := w) h
  unfold slotClamp clamp
  -- A type that fills its slot has the same ends. Any other one is inside of it, so the number has
  -- to be in range by itself.
  split at hends
  next hbits => simp only [hends, hbits, true_or]
  next hbits =>
    obtain ⟨hbelow, habove⟩ := hends
    cases hsign : t.isSigned <;> simp only [hsign, Bool.false_eq_true, if_false, if_true] at *
    · simp only [hbits, false_or, false_implies, and_true]
      omega
    · simp only [hbits, false_or, true_implies]
      omega

/-! ## Floating-point values -/

/-- A float lies where it says. -/
theorem liesAt_of_isFloat (h : t.isFloat) {v : Code.Value} {p : Option Position} :
    t.LiesAt w v p ↔
      ∃ x : Binary t.floatSlot.format, v = .ofFloat t.floatSlot x ∧ x.position? = p := by
  cases t <;> first | exact Iff.rfl | cases h

end Source.Ty

namespace Lowering

open Weir.Code (Node Value)
open Weir.Machine (Run evalNode evalNode_convert)
open Weir.Source (PointerWidth Ty)

variable {σ : Type} {call : Nat → List Value → Run σ (Option Value)} {clock : Nat}
  {st st₁ : Machine.State σ} {node : Node} {w : PointerWidth} {s t : Ty} {v : Value} {m : Int}

/-! ## Casts -/

/-- The integers that are floating-point numbers of either format. -/
private theorem liesAt_ofFloat (hs : s.isFloat) (hm : m.natAbs ≤ 2 ^ 24) :
    s.LiesAt w (.ofFloat s.floatSlot (Binary.ofInt m)) (some (.ofRat m)) := by
  cases s with
  | f32 => exact ⟨_, rfl, Binary.position?_ofInt (k := 149) (by decide) (by decide) hm⟩
  | f64 =>
    refine ⟨_, rfl, Binary.position?_ofInt (k := 1074) (by decide) (by decide) ?_⟩
    exact hm.trans (Nat.pow_le_pow_right (by decide) (by decide))
  | _ => cases hs

/-- The operator clamps to the ends of its target. -/
private theorem eval_truncate (target : Code.IntSlot) (source : Code.FloatSlot) (signed : Bool)
    (x : Binary source.format) :
    (Code.Conversion.truncate target source signed).eval (.ofFloat source x) =
      .ok (.ofInt target
        (BitVec.ofInt _ (x.truncate (target.least signed) (target.greatest signed)))) := by
  cases source <;> rfl

/-- No float converts to an integer without loss. -/
private theorem losslessResolved_of_isFloat (hs : s.isFloat) (ht : t.isInteger) :
    losslessResolved s t = false := by
  revert hs ht
  cases s <;> cases t <;> decide

/-- A conversion from a floating-point type to an integer type of fixed width. -/
private theorem evalNode_coerceResolved_float (hs : s.isFloat) (ht : t.isInteger)
    {x : Binary s.floatSlot.format} (hx : x.position? = some (.ofRat m))
    (h : evalNode call clock node st = .ok (some (.ofFloat s.floatSlot x)) st₁) :
    evalNode call clock (coerceResolved w node s t) st =
      .ok (some (t.encode w (t.wrap w (t.slotClamp w m)))) st₁ := by
  have hi : t.isIntegral := by simp [Ty.isIntegral, ht]
  -- The slot is changed first, which saturates there.
  have hmoved : evalNode call clock (changeSlot w node s t) st =
      .ok (some (t.encode w (t.slotClamp w m))) st₁ := by
    simp only [changeSlot, hs, Ty.isFloat_of_isIntegral hi, Bool.and_false, Bool.false_eq_true,
      if_false, if_true]
    refine evalNode_convert h ?_
    rw [eval_truncate, Binary.truncate_of_position? hx]
    rfl
  have hne : s ≠ t := by
    rintro rfl
    rw [Ty.isFloat_of_isIntegral hi] at hs
    cases hs
  have hvoid : s.isVoid = false := by cases s <;> first | rfl | cases hs
  have hbool : t ≠ .bool := by
    rintro rfl
    cases ht
  simp only [coerceResolved, hne, if_false, Ty.isVoid_of_isIntegral hi, hvoid, hbool,
    losslessResolved_of_isFloat hs ht, Bool.false_eq_true, Bool.not_false, Bool.and_true,
    decide_eq_true_eq]
  split
  next => exact evalNode_normalize ht hmoved
  -- A type that fills its slot is left as it is.
  next hbits =>
    rw [Ty.encode_wrap (Ty.bits_eq_intSlot hi hbits)]
    exact hmoved

/-- A cast wraps what is left after the truncation to the slot. -/
private theorem evalNode_coerce_float (hs : s.isFloat) (ht : t.isInteger)
    (hv : s.LiesAt w v (some (.ofRat m))) (h : evalNode call clock node st = .ok (some v) st₁) :
    evalNode call clock (coerce w node s t) st =
      .ok (some (t.encode w (t.wrap w (t.slotClamp w m)))) st₁ := by
  obtain ⟨x, rfl, hx⟩ := (Ty.liesAt_of_isFloat hs).1 hv
  have hresolve : s.resolve w = s := by cases s <;> first | rfl | cases hs
  have hint : (t.resolve w).isInteger := by cases w <;> cases t <;> first | rfl | cases ht
  rw [coerce, hresolve, ← Ty.encode_resolve, ← Ty.wrap_resolve, ← Ty.slotClamp_resolve]
  exact evalNode_coerceResolved_float hs hint hx h

/-- Casting an integer in a floating-point format yields the nearest number of the target if the
    target fills its slot, or has the number, or has no sign and the number is negative. In all
    cases it yields the only number of the target that agrees in the last bits with the nearest
    number of the slot. -/
theorem cast_float (call : Nat → List Value → Run σ (Option Value)) (clock : Nat)
    (w : PointerWidth) (hs : s.isFloat) (ht : t.isInteger) (m : Int) :
    (m.natAbs ≤ 2 ^ 24 → s.LiesAt w (.ofFloat s.floatSlot (Binary.ofInt m)) (some (.ofRat m))) ∧
    ∃ k, (∀ node v st st₁, s.LiesAt w v (some (.ofRat m)) →
        evalNode call clock node st = .ok (some v) st₁ → ∃ code u,
          convert w true node s t = .ok code ∧ evalNode call clock code st = .ok (some u) st₁ ∧
          t.Holds w u k) ∧
      (t.bits w = (t.intSlot w).bits ∨ (m ≤ t.greatest w ∧ (t.isSigned → t.least w ≤ m)) →
        k = t.clamp w m) ∧
      ∀ n, t.InRange w n ∧ n ≡ t.slotClamp w m [ZMOD 2 ^ t.bits w] ↔ n = k := by
  have hi : t.isIntegral := by simp [Ty.isIntegral, ht]
  refine ⟨liesAt_ofFloat hs, t.wrap w (t.slotClamp w m), ?_, ?_, ?_⟩
  · intro node v st st₁ hv h
    have hvoid : s.isVoid = false := by cases s <;> first | rfl | cases hs
    have hconvert : convert w true node s t = .ok (coerce w node s t) := by
      simp [convert, checkExplicit, hvoid, pure, Except.pure, bind, Except.bind]
    exact ⟨_, _, hconvert, evalNode_coerce_float hs ht hv h, Ty.inRange_wrap hi, rfl⟩
  -- Where both clamps agree the number is in range, and wrapping does nothing.
  · intro hsaturates
    rw [(Ty.slotClamp_eq_clamp_iff hi).2 hsaturates, Ty.wrap_of_inRange hi (Ty.inRange_clamp hi)]
  · intro n
    exact (Ty.eq_wrap_iff hi).symm

/-- A negative number becomes zero, the least number of the target. -/
theorem minus_five_cast :
    Ty.f64.isFloat ∧ Ty.u32.isInteger ∧ ∃ code u,
      convert .w32 true (.const (.f64 (Binary.ofInt (-5)))) .f64 .u32 = .ok code ∧
      evalNode (fun _ _ => Run.trap .unreachable) 0 code (⟨[], none, 0, ()⟩ : Machine.State Unit) =
        .ok (some u) ⟨[], none, 0, ()⟩ ∧ Ty.u32.Holds .w32 u 0 := by
  obtain ⟨hvalue, k, hrun, hclamp, -⟩ := cast_float (fun _ _ => Run.trap .unreachable) 0
    (σ := Unit) .w32 (s := .f64) (t := .u32) rfl rfl (-5)
  obtain rfl : k = 0 := hclamp (.inl (by decide))
  obtain ⟨code, u, hcode, heval, hholds⟩ := hrun (.const (.f64 (Binary.ofInt (-5)))) _
    ⟨[], none, 0, ()⟩ _ (hvalue (by decide)) rfl
  exact ⟨rfl, rfl, code, u, hcode, heval, hholds⟩

/-- A small type wraps the number that the slot has left to it: it turns 300 into 44, where 255 is
    the greatest number that it has. -/
theorem three_hundred_cast :
    Ty.f64.LiesAt .w32 (.f64 (Binary.ofInt 300)) (some (.ofRat (300 : Int))) ∧
    Ty.u8.clamp .w32 300 = 255 ∧
    convert .w32 true (.const (.f64 (Binary.ofInt 300))) .f64 .u8 =
      .ok (coerce .w32 (.const (.f64 (Binary.ofInt 300))) .f64 .u8) ∧
    evalNode (fun _ _ => Run.trap .unreachable) 0
      (coerce .w32 (.const (.f64 (Binary.ofInt 300))) .f64 .u8)
      (⟨[], none, 0, ()⟩ : Machine.State Unit) = .ok (some (.i32 44)) ⟨[], none, 0, ()⟩ := by
  have hvalue : Ty.f64.LiesAt .w32 (.f64 (Binary.ofInt 300)) (some (.ofRat (300 : Int))) :=
    liesAt_ofFloat rfl (by decide)
  exact ⟨hvalue, by decide, rfl, evalNode_coerce_float rfl rfl hvalue rfl⟩

end Lowering

end Weir
