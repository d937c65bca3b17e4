import Weir.Proofs.FiniteRounding

/-!
# Rounding of what needs none

A rational that a format has is rounded to itself, in every format: the unit that rounding chooses
is the one that the number is kept in, and the number is a whole number of these units.

## Key results

- `floorLog2_eq`: the only power of two that is at most a number with the next one above it
- `Binary.ofAbsRat_absRat`: a finite number is what its absolute value is rounded to
- `Binary.toRat_ofRat_toRat`: rounding keeps the values of finite numbers
-/

namespace Weir

/-- The powers of two around a number determine its logarithm. -/
theorem floorLog2_eq {q : ℚ} {k : ℤ} (hlo : (2 : ℚ) ^ k ≤ q) (hhi : q < (2 : ℚ) ^ (k + 1)) :
    floorLog2 q = k := by
  have hpos : 0 < q := lt_of_lt_of_le (by positivity) hlo
  have hbelow : (2 : ℚ) ^ floorLog2 q < 2 ^ (k + 1) := (zpow_floorLog2_le hpos).trans_lt hhi
  have habove : (2 : ℚ) ^ k < 2 ^ (floorLog2 q + 1) := hlo.trans_lt (lt_zpow_floorLog2 hpos)
  rw [zpow_lt_zpow_iff_right₀ (by norm_num)] at hbelow habove
  omega

/-- Whole numbers are rounded to themselves. -/
private theorem roundHalfEven_natCast (n : ℕ) : roundHalfEven (n : ℚ) = n :=
  le_antisymm (roundHalfEven_le (Nat.cast_nonneg n) le_rfl) (le_roundHalfEven le_rfl)

namespace Binary

variable {f : Format} {x : Binary f}

/-- The fraction of a float has as many bits as the format gives it. -/
private theorem fraction_lt (x : Binary f) : x.fraction < 2 ^ f.fractionBits := by
  unfold fraction
  rw [Nat.one_shiftLeft]
  exact Nat.mod_lt _ (by positivity)

/-- The fields of a number make up its magnitude. -/
private theorem exponentField_fraction (x : Binary f) :
    x.exponentField * 2 ^ f.fractionBits + x.fraction = x.magnitude.toNat := by
  unfold exponentField fraction
  rw [Nat.one_shiftLeft, Nat.shiftRight_eq_div_pow, Nat.mul_comm]
  exact Nat.div_add_mod _ _

/-- The magnitude in units above the least one: what rounding puts together. -/
theorem magnitude_eq (x : Binary f) :
    (x.exponent - f.leastExponent).toNat * 2 ^ f.fractionBits + x.significand =
      x.magnitude.toNat := by
  rw [← exponentField_fraction x]
  unfold exponent significand
  rw [add_sub_cancel_left, Int.toNat_natCast, Nat.one_shiftLeft]
  split
  next hzero => rw [hzero]
  next hfield =>
    -- The hidden one counts as one more in the exponent field.
    obtain ⟨k, hk⟩ := Nat.exists_eq_succ_of_ne_zero hfield
    rw [hk, Nat.succ_sub_one, Nat.succ_mul]
    omega

/-- The significand has one bit more than the fraction. -/
theorem significand_lt (x : Binary f) : x.significand < 2 ^ (f.fractionBits + 1) := by
  have hlt := fraction_lt x
  unfold significand
  rw [Nat.one_shiftLeft, pow_succ]
  split <;> omega

/-- The unit of a number is the one that rounding chooses for it. -/
private theorem max_floorLog2_eq (hne : x.significand ≠ 0) :
    max (floorLog2 x.absRat - f.fractionBits) f.leastExponent = x.exponent := by
  have htwo : (2 : ℚ) ≠ 0 := by norm_num
  have hpos : 0 < x.absRat := by
    have hsignificand : (0 : ℚ) < x.significand := by exact_mod_cast Nat.pos_of_ne_zero hne
    unfold absRat
    positivity
  by_cases hfield : x.exponentField = 0
  · -- A subnormal number lies below the first normal one.
    have hexponent : x.exponent = f.leastExponent := by simp [exponent, hfield]
    have hlt : x.absRat < 2 ^ (f.fractionBits + f.leastExponent) := by
      have hfraction : (x.significand : ℚ) < 2 ^ (f.fractionBits : ℤ) := by
        rw [significand, if_pos hfield, zpow_natCast]
        exact_mod_cast fraction_lt x
      rw [absRat, hexponent, zpow_add₀ htwo]
      exact mul_lt_mul_of_pos_right hfraction (by positivity)
    have hlog := (zpow_floorLog2_le hpos).trans_lt hlt
    rw [zpow_lt_zpow_iff_right₀ (by norm_num)] at hlog
    omega
  · -- A normal number has its hidden one in front.
    have hleast : f.leastExponent ≤ x.exponent := by simp [exponent]
    have hlo : (2 : ℚ) ^ (f.fractionBits : ℤ) ≤ x.significand := by
      rw [significand, if_neg hfield, zpow_natCast, Nat.one_shiftLeft]
      exact_mod_cast Nat.le_add_left _ _
    have hhi : (x.significand : ℚ) < 2 ^ ((f.fractionBits : ℤ) + 1) := by
      have hlt := significand_lt x
      rw [← Nat.cast_succ, zpow_natCast]
      exact_mod_cast hlt
    have hlog : floorLog2 x.absRat = f.fractionBits + x.exponent := by
      apply floorLog2_eq
      · rw [absRat, zpow_add₀ htwo]
        exact mul_le_mul_of_nonneg_right hlo (by positivity)
      · rw [absRat, add_right_comm, zpow_add₀ htwo]
        exact mul_lt_mul_of_pos_right hhi (by positivity)
    omega

/-- A finite number is what its absolute value is rounded to. -/
theorem ofAbsRat_absRat (h : x.isFinite) : ofAbsRat x.negative x.absRat = x := by
  have hmagnitude := magnitude_eq x
  have hfinite : x.magnitude.toNat < f.infinity := by simpa [isFinite] using h
  have hsame : (ofMagnitude x.negative x.magnitude.toNat : Binary f) = x := by
    unfold ofMagnitude
    rw [BitVec.ofNat_toNat, BitVec.setWidth_eq]
  have htwo : (2 : ℚ) ^ x.exponent ≠ 0 := by positivity
  unfold ofAbsRat
  -- Zero has no leading bit, so it is a case of its own.
  by_cases hzero : x.significand = 0
  · have habs : x.absRat = 0 := by simp [absRat, hzero]
    have hfield : x.exponentField = 0 := by
      by_contra hfield
      rw [significand, if_neg hfield, Nat.one_shiftLeft] at hzero
      have hpow : 0 < 2 ^ f.fractionBits := by positivity
      omega
    have hnone : x.magnitude.toNat = 0 := by
      rw [← hmagnitude, hzero, exponent, hfield]
      simp
    rw [if_pos habs, zero, ← hnone]
    exact hsame
  · have habs : x.absRat ≠ 0 := by
      unfold absRat
      exact mul_ne_zero (by exact_mod_cast hzero) htwo
    -- The float is found at its own exponent, where nothing has to be rounded.
    rw [if_neg habs]
    dsimp only
    rw [max_floorLog2_eq hzero, absRat, mul_div_cancel_right₀ _ htwo, roundHalfEven_natCast,
      Nat.shiftLeft_eq, hmagnitude, Nat.min_eq_left hfinite.le]
    exact hsame

/-- The absolute value of a float is not negative. -/
theorem zero_le_absRat (x : Binary f) : 0 ≤ x.absRat := by
  unfold absRat
  positivity

/-- Rounding keeps the values of finite numbers; of the two zeros it yields the positive one. -/
theorem toRat_ofRat_toRat (h : x.isFinite) :
    (ofRat x.toRat : Binary f).isFinite ∧ (ofRat x.toRat : Binary f).toRat = x.toRat := by
  have hround := ofAbsRat_absRat h
  have habs := zero_le_absRat x
  unfold ofRat
  cases hsign : x.negative with
  | false =>
    have hvalue : x.toRat = x.absRat := by simp [toRat, hsign]
    rw [hsign] at hround
    rw [hvalue, if_neg (not_lt.2 habs), hround]
    exact ⟨h, hvalue⟩
  | true =>
    have hvalue : x.toRat = -x.absRat := by simp [toRat, hsign]
    rw [hsign] at hround
    by_cases hneg : x.toRat < 0
    · rw [if_pos hneg, hvalue, Rat.neg_neg, hround]
      exact ⟨h, hvalue⟩
    · -- This is the negative zero.
      have hzero : x.absRat = 0 := by
        rw [hvalue] at hneg
        linarith
      have hpositive : (ofAbsRat false 0 : Binary f) = x.neg := by
        rw [← ofAbsRat_absRat (x := x.neg) h, negative_neg, hsign, absRat_neg, hzero]
        rfl
      rw [if_neg hneg, hvalue, hzero, neg_zero, hpositive]
      refine ⟨h, ?_⟩
      rw [toRat_neg, hvalue, hzero, neg_zero, neg_zero]

end Binary

end Weir
