import Mathlib.Algebra.Order.Field.Power
import Mathlib.Data.Rat.Floor
import Mathlib.Tactic.Linarith
import Mathlib.Tactic.Positivity
import Mathlib.Tactic.Ring
import Weir.Binary.Arithmetic

/-!
# Rounding to finite doubles

A rational that is at most the largest finite double is rounded to a finite double. So 64-bit
integers are, products that do not overflow, and quotients by numbers that are at least one.

## Key results

- `zpow_floorLog2_le`, `lt_zpow_floorLog2`: a rational between powers of two
- `roundHalfEven_le`, `le_roundHalfEven`: rounding does not pass an integer
- `Binary.isFinite_ofAbsRat`, `Binary.one_le_absRat_ofAbsRat`: rounding does not pass the largest
  finite double, and it does not fall below one
- `Binary.isFinite_ofInt`, `Binary.isFinite_mul`, `Binary.isFinite_div`: finite results
-/

namespace Weir

/-! ## Powers of two -/

/-- A positive rational lies between the powers of two around the difference of the binary
logarithms of its parts. -/
private theorem between_powers {q : ℚ} (hq : 0 < q) :
    (2 : ℚ) ^ ((q.num.natAbs.log2 : ℤ) - (q.den.log2 : ℤ) - 1) ≤ q ∧
      q < (2 : ℚ) ^ ((q.num.natAbs.log2 : ℤ) - (q.den.log2 : ℤ) + 1) := by
  have hnum : (q.num.natAbs : ℚ) = q * q.den := by
    rw [Nat.cast_natAbs, abs_of_pos (Rat.num_pos.2 hq), Rat.mul_den_eq_num]
  have hden : (0 : ℚ) < q.den := by exact_mod_cast q.den_pos
  have hne : q.num.natAbs ≠ 0 := Int.natAbs_ne_zero.2 (Rat.num_ne_zero.2 hq.ne')
  have hnumlo : (2 : ℚ) ^ (q.num.natAbs.log2 : ℤ) ≤ q * q.den := by
    rw [zpow_natCast, ← hnum]
    exact_mod_cast Nat.log2_self_le hne
  have hnumhi : q * q.den < (2 : ℚ) ^ ((q.num.natAbs.log2 : ℤ) + 1) := by
    rw [← Nat.cast_succ, zpow_natCast, ← hnum]
    exact_mod_cast Nat.lt_log2_self
  have hdenlo : (2 : ℚ) ^ (q.den.log2 : ℤ) ≤ q.den := by
    rw [zpow_natCast]
    exact_mod_cast Nat.log2_self_le q.den_nz
  have hdenhi : (q.den : ℚ) < (2 : ℚ) ^ ((q.den.log2 : ℤ) + 1) := by
    rw [← Nat.cast_succ, zpow_natCast]
    exact_mod_cast Nat.lt_log2_self
  have htwo : (2 : ℚ) ≠ 0 := by norm_num
  -- The least quotient is of the least numerator by the greatest denominator.
  constructor
  · rw [show (q.num.natAbs.log2 : ℤ) - q.den.log2 - 1 =
      q.num.natAbs.log2 - (q.den.log2 + 1) by ring, zpow_sub₀ htwo, div_le_iff₀ (by positivity)]
    exact hnumlo.trans (mul_le_mul_of_nonneg_left hdenhi.le hq.le)
  · rw [show (q.num.natAbs.log2 : ℤ) - q.den.log2 + 1 =
      q.num.natAbs.log2 + 1 - q.den.log2 by ring, zpow_sub₀ htwo, lt_div_iff₀ (by positivity)]
    exact lt_of_le_of_lt (mul_le_mul_of_nonneg_left hdenlo hq.le) hnumhi

/-- The power of two below a number is not greater. -/
theorem zpow_floorLog2_le {q : ℚ} (hq : 0 < q) : (2 : ℚ) ^ floorLog2 q ≤ q := by
  unfold floorLog2
  dsimp only
  split
  · next h => exact h
  · exact (between_powers hq).1

/-- The next power of two is greater. -/
theorem lt_zpow_floorLog2 {q : ℚ} (hq : 0 < q) : q < (2 : ℚ) ^ (floorLog2 q + 1) := by
  unfold floorLog2
  dsimp only
  split
  · exact (between_powers hq).2
  · next h =>
    rw [sub_add_cancel]
    exact not_le.1 h

/-! ## Rounding to integers -/

/-- Rounding does not pass an integer. -/
theorem roundHalfEven_le {q : ℚ} {n : ℕ} (hq : 0 ≤ q) (h : q ≤ n) : roundHalfEven q ≤ n := by
  have hnonneg : 0 ≤ q.num := Rat.num_nonneg.2 hq
  have hnum : q.num.toNat ≤ n * q.den := by
    have hle : (q.num : ℚ) ≤ n * q.den := by
      rw [← Rat.mul_den_eq_num]
      exact mul_le_mul_of_nonneg_right h (Nat.cast_nonneg _)
    have hint : q.num ≤ (n * q.den : ℕ) := by exact_mod_cast hle
    omega
  have hdiv := Nat.div_add_mod q.num.toNat q.den
  have hpos := q.den_pos
  unfold roundHalfEven
  dsimp only
  have hwhole : q.num.toNat / q.den ≤ n := Nat.div_le_of_le_mul (by rwa [Nat.mul_comm])
  by_cases heq : q.num.toNat / q.den = n
  · -- Nothing is left to round.
    have hrest : q.num.toNat % q.den = 0 := by
      rw [heq, Nat.mul_comm] at hdiv
      omega
    rw [if_pos (.inl (by omega))]
    exact hwhole
  · split <;> omega

/-- Rounding does not fall below an integer. -/
theorem le_roundHalfEven {q : ℚ} {n : ℕ} (h : n ≤ q) : n ≤ roundHalfEven q := by
  have hnum : n * q.den ≤ q.num.toNat := by
    have hle : (n * q.den : ℚ) ≤ q.num := by
      rw [← Rat.mul_den_eq_num]
      exact mul_le_mul_of_nonneg_right h (Nat.cast_nonneg _)
    have hint : ((n * q.den : ℕ) : ℤ) ≤ q.num := by exact_mod_cast hle
    omega
  have hwhole : n ≤ q.num.toNat / q.den := (Nat.le_div_iff_mul_le q.den_pos).2 hnum
  unfold roundHalfEven
  dsimp only
  split <;> omega

/-! ## Doubles -/

namespace Format

theorem double_fractionBits : Format.double.fractionBits = 52 := rfl

theorem double_leastExponent : Format.double.leastExponent = -1074 := by decide

theorem double_infinity : Format.double.infinity = 2047 * 2 ^ 52 := by decide

end Format

namespace Binary

/-- A magnitude below that of the infinities is finite. -/
theorem isFinite_ofMagnitude {f : Format} {negative : Bool} {m : ℕ} (h : m < f.infinity) :
    (ofMagnitude negative m : Binary f).isFinite := by
  simp only [isFinite, ofMagnitude, BitVec.toNat_ofNat, decide_eq_true_eq]
  exact Nat.lt_of_le_of_lt (Nat.mod_le _ _) h

/-- The largest finite double. -/
def largest : ℚ := (2 ^ 53 - 1) * 2 ^ 971

/-- The largest double is below the next power of two. -/
private theorem largest_lt : largest < (2 : ℚ) ^ (1024 : ℤ) := by
  have hpow : (2 : ℚ) ^ (1024 : ℤ) = 2 ^ 53 * 2 ^ 971 := by
    rw [← pow_add, ← zpow_natCast]
    congr 1
  rw [hpow]
  exact mul_lt_mul_of_pos_right (by norm_num) (by positivity)

/-- What is at most the largest finite double is not rounded to infinity. -/
theorem isFinite_ofAbsRat (negative : Bool) {q : ℚ} (hq : 0 ≤ q) (h : q ≤ largest) :
    (ofAbsRat negative q : Double).isFinite := by
  unfold ofAbsRat
  split
  · exact isFinite_ofMagnitude (by decide)
  next hne =>
  have hpos : 0 < q := lt_of_le_of_ne hq (Ne.symm hne)
  have htwo : (2 : ℚ) ≠ 0 := by norm_num
  dsimp only
  rw [Format.double_leastExponent, Format.double_fractionBits, Format.double_infinity]
  generalize hunit : max (floorLog2 q - ((52 : ℕ) : ℤ)) (-1074) = unit
  have hlog : floorLog2 q ≤ 1023 := by
    by_contra hlarge
    have hle : (2 : ℚ) ^ (1024 : ℤ) ≤ q :=
      (zpow_le_zpow_right₀ (by norm_num) (by omega)).trans (zpow_floorLog2_le hpos)
    exact absurd (hle.trans h) (not_le.2 largest_lt)
  -- A unit is chosen so that the number is less than 2 ^ 53 of them.
  have hsteps : roundHalfEven (q / 2 ^ unit) ≤ 2 ^ 53 := by
    refine roundHalfEven_le (by positivity) ?_
    rw [div_le_iff₀ (by positivity), Nat.cast_pow, Nat.cast_ofNat, ← zpow_natCast,
      ← zpow_add₀ htwo]
    exact (lt_zpow_floorLog2 hpos).le.trans (zpow_le_zpow_right₀ (by norm_num) (by omega))
  refine isFinite_ofMagnitude (Nat.lt_of_le_of_lt (Nat.min_le_left _ _) ?_)
  rw [Nat.shiftLeft_eq, Format.double_infinity]
  by_cases htop : unit = 971
  · -- In the largest unit, the largest finite double is the bound.
    have hlast : roundHalfEven (q / 2 ^ unit) ≤ 2 ^ 53 - 1 := by
      refine roundHalfEven_le (by positivity) ?_
      rw [div_le_iff₀ (by positivity), htop]
      refine h.trans (le_of_eq ?_)
      unfold largest
      norm_num
    rw [htop] at hlast ⊢
    norm_num at hlast ⊢
    omega
  · have hexponent : (unit - -1074).toNat * 2 ^ 52 ≤ 2044 * 2 ^ 52 :=
      Nat.mul_le_mul_right _ (by omega)
    omega

variable {x y : Double}

/-- The absolute value of a double is not negative. -/
private theorem absRat_nonneg (x : Double) : 0 ≤ x.absRat := by
  unfold absRat
  positivity

/-- No finite double is larger than the largest one. -/
private theorem absRat_le_largest (h : x.isFinite) : x.absRat ≤ largest := by
  rw [isFinite, decide_eq_true_eq, Format.double_infinity] at h
  have hfield : x.exponentField ≤ 2046 := by
    rw [exponentField, Format.double_fractionBits, Nat.shiftRight_eq_div_pow]
    omega
  have hsignificand : x.significand ≤ 2 ^ 53 - 1 := by
    have hlt : x.fraction < 2 ^ 52 := Nat.mod_lt _ (by decide)
    unfold significand
    rw [Format.double_fractionBits, Nat.one_shiftLeft]
    split <;> omega
  -- The exponent is bounded by that of the largest double, and so is the significand.
  have hexponent : x.exponent ≤ 971 := by
    unfold exponent
    rw [Format.double_leastExponent]
    omega
  unfold absRat largest
  have hcast : (x.significand : ℚ) ≤ 2 ^ 53 - 1 := by
    have hle : ((x.significand : ℕ) : ℚ) ≤ ((2 ^ 53 - 1 : ℕ) : ℚ) := by exact_mod_cast hsignificand
    norm_num at hle ⊢
    exact hle
  have hpow : (2 : ℚ) ^ x.exponent ≤ 2 ^ 971 := by
    rw [← zpow_natCast]
    exact zpow_le_zpow_right₀ (by norm_num) hexponent
  exact mul_le_mul hcast hpow (by positivity) (by norm_num)

/-- The magnitudes from that of one on denote numbers that are at least one. -/
private theorem one_le_absRat_ofMagnitude (negative : Bool) {m : ℕ} (hlo : 1023 * 2 ^ 52 ≤ m)
    (hhi : m ≤ Format.double.infinity) : 1 ≤ (ofMagnitude negative m : Double).absRat := by
  generalize hx : (ofMagnitude negative m : Double) = x
  have hmagnitude : x.magnitude.toNat = m := by
    rw [← hx, ofMagnitude, BitVec.toNat_ofNat]
    exact Nat.mod_eq_of_lt (Nat.lt_of_le_of_lt (Format.double_infinity ▸ hhi) (by decide))
  have hfield : 1023 ≤ x.exponentField := by
    rw [exponentField, hmagnitude, Format.double_fractionBits, Nat.shiftRight_eq_div_pow]
    omega
  -- A number from one on has its leading bit, so it is not below the power of its exponent.
  have hsignificand : 2 ^ 52 ≤ x.significand := by
    rw [significand, if_neg (by omega), Format.double_fractionBits, Nat.one_shiftLeft]
    exact Nat.le_add_left _ _
  have hexponent : -52 ≤ x.exponent := by
    unfold exponent
    rw [Format.double_leastExponent]
    omega
  have hcast : (2 : ℚ) ^ 52 ≤ x.significand := by exact_mod_cast hsignificand
  calc (1 : ℚ) = 2 ^ 52 * 2 ^ (-52 : ℤ) := by norm_num
    _ ≤ x.significand * 2 ^ x.exponent :=
      mul_le_mul hcast (zpow_le_zpow_right₀ (by norm_num) hexponent) (by positivity)
        (by positivity)

/-- What is at least one is not rounded below one. -/
theorem one_le_absRat_ofAbsRat (negative : Bool) {q : ℚ} (h : 1 ≤ q) :
    1 ≤ (ofAbsRat negative q : Double).absRat := by
  have hpos : 0 < q := lt_of_lt_of_le one_pos h
  have htwo : (2 : ℚ) ≠ 0 := by norm_num
  unfold ofAbsRat
  rw [if_neg hpos.ne']
  dsimp only
  have hlog : 0 ≤ floorLog2 q := by
    by_contra hneg
    have hlt : (2 : ℚ) ^ (floorLog2 q + 1) ≤ 1 := zpow_le_one_of_nonpos₀ (by norm_num) (by omega)
    exact absurd (h.trans_lt (lt_zpow_floorLog2 hpos)) (not_lt.2 hlt)
  have hunit : max (floorLog2 q - ((52 : ℕ) : ℤ)) (-1074) = floorLog2 q - 52 := by omega
  -- The power of two below the number is 2 ^ 52 units already.
  have hsteps : 2 ^ 52 ≤ roundHalfEven (q / 2 ^ (floorLog2 q - 52)) := by
    refine le_roundHalfEven ?_
    rw [le_div_iff₀ (by positivity), Nat.cast_pow, Nat.cast_ofNat, ← zpow_natCast,
      ← zpow_add₀ htwo]
    exact (zpow_le_zpow_right₀ (by norm_num) (by omega)).trans (zpow_floorLog2_le hpos)
  have hfloor : 1022 * 2 ^ 52 ≤ (floorLog2 q - 52 - -1074).toNat * 2 ^ 52 :=
    Nat.mul_le_mul_right _ (by omega)
  refine one_le_absRat_ofMagnitude negative ?_ (Nat.min_le_right _ _)
  rw [Format.double_leastExponent, Format.double_fractionBits, Format.double_infinity, hunit,
    Nat.shiftLeft_eq]
  omega

/-- A finite number is a number, and it is not infinite. -/
theorem isFinite_iff {f : Format} (x : Binary f) :
    x.isFinite ↔ x.isNaN = false ∧ x.isInfinite = false := by
  simp only [isFinite, isNaN, isInfinite, decide_eq_true_eq, decide_eq_false_iff_not,
    beq_eq_false_iff_ne]
  omega

/-- Rounding yields a number, or an infinity. -/
private theorem isNaN_ofAbsRat (negative : Bool) (q : ℚ) :
    (ofAbsRat negative q : Double).isNaN = false := by
  have hnumber : ∀ m ≤ Format.double.infinity,
      (ofMagnitude negative m : Double).isNaN = false := by
    intro m hm
    simp only [isNaN, ofMagnitude, BitVec.toNat_ofNat, decide_eq_false_iff_not]
    exact not_lt.2 ((Nat.mod_le _ _).trans hm)
  unfold ofAbsRat
  split
  · exact hnumber 0 (Nat.zero_le _)
  · exact hnumber _ (Nat.min_le_right _ _)

/-- A product of finite numbers is finite, unless it is past the largest one. -/
theorem isFinite_mul (hx : x.isFinite) (hy : y.isFinite) (h : (x.mul y).isInfinite = false) :
    (x.mul y).isFinite := by
  rw [isFinite_iff] at hx hy
  rw [isFinite_iff]
  refine ⟨?_, h⟩
  -- Both factors are finite, so that their exact product is what is rounded.
  unfold mul
  simp only [hx.1, hx.2, hy.1, hy.2, Bool.or_self, Bool.false_eq_true, if_false]
  exact isNaN_ofAbsRat _ _

/-- A quotient is no larger than what is divided, if the divisor is one or more. -/
theorem isFinite_div (hx : x.isFinite) (hy : y.isFinite) (hone : 1 ≤ y.absRat) :
    (x.div y).isFinite := by
  have hle : x.absRat / y.absRat ≤ largest :=
    (div_le_self x.absRat_nonneg hone).trans (absRat_le_largest hx)
  -- A divisor of zero is ruled out by its absolute value.
  have hzero : y.isZero = false := by
    by_contra hzero
    have hmagnitude : y.magnitude.toNat = 0 := by simpa [isZero] using hzero
    have habs : y.absRat = 0 := by
      simp [absRat, significand, exponentField, fraction, hmagnitude]
    rw [habs] at hone
    exact absurd hone (by norm_num)
  have hfinite := isFinite_ofAbsRat (x.negative != y.negative)
    (div_nonneg x.absRat_nonneg y.absRat_nonneg) hle
  rw [isFinite_iff] at hx hy
  unfold div
  simp only [hx.1, hx.2, hy.1, hy.2, hzero, Bool.or_self, Bool.false_eq_true, if_false]
  exact hfinite

/-- Integers of 64 bits are rounded to finite doubles. -/
theorem isFinite_ofInt {n : ℤ} (hlo : -2 ^ 64 < n) (hhi : n < 2 ^ 64) :
    (ofInt n : Double).isFinite := by
  have hlarge : (2 : ℚ) ^ 64 ≤ largest :=
    calc (2 : ℚ) ^ 64 ≤ 2 ^ 971 := pow_le_pow_right₀ (by norm_num) (by norm_num)
      _ ≤ (2 ^ 53 - 1) * 2 ^ 971 := le_mul_of_one_le_left (by positivity) (by norm_num)
  have habs : |(n : ℚ)| ≤ largest := by
    refine le_trans ?_ hlarge
    rw [abs_le]
    constructor
    · exact_mod_cast hlo.le
    · exact_mod_cast hhi.le
  unfold ofInt ofRat
  split
  · next h =>
    rw [← abs_of_neg h]
    exact isFinite_ofAbsRat true (abs_nonneg _) habs
  · next h =>
    rw [← abs_of_nonneg (not_lt.1 h)]
    exact isFinite_ofAbsRat false (abs_nonneg _) habs

end Binary

end Weir
