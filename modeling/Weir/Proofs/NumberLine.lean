import Mathlib.Order.WithBot
import Weir.Proofs.ExactRounding

/-!
# Floating-point numbers on the number line

A number of a format, finite or not, has a position on the line from one infinity to the other; what
is not a number has none. Comparing numbers of one format is comparing their positions. Some numbers
have the same position in every format: the numbers of the 32-bit format, and integers that have no
more digits than a significand.

## Key results

- `Binary.absRat_lt_absRat`, `Binary.absRat_succ`: larger magnitudes are larger numbers, and the
  next one is one unit larger
- `Binary.rank_lt_rank_iff`: ranks are in the order of the positions
- `Binary.lt_iff`, `Binary.le_iff`, `Binary.eq_iff`: comparisons compare positions
- `Binary.exists_absRat`: the numbers that a format has
- `Binary.position?_convert`, `Binary.position?_ofInt`: positions that are kept
-/

namespace Weir

/-- The rationals between the two infinities. -/
abbrev Position : Type := WithBot (WithTop ℚ)

/-- The position of a rational. -/
def Position.ofRat (q : ℚ) : Position := WithBot.some (WithTop.some q)

/-- Rational numbers keep their order on the line. -/
theorem Position.ofRat_lt_ofRat {p q : ℚ} : ofRat p < ofRat q ↔ p < q :=
  WithBot.coe_lt_coe.trans WithTop.coe_lt_coe

theorem Position.ofRat_inj {p q : ℚ} : ofRat p = ofRat q ↔ p = q :=
  WithBot.coe_inj.trans WithTop.coe_inj

namespace Format

theorem single_fractionBits : Format.single.fractionBits = 23 := rfl

private theorem single_leastExponent : Format.single.leastExponent = -149 := by decide

private theorem single_infinity : Format.single.infinity = 255 * 2 ^ 23 := by decide

end Format

namespace Binary

variable {f : Format} {x y : Binary f}

/-- Where a number lies. -/
def place (x : Binary f) : Position :=
  if x.isInfinite then if x.negative then ⊥ else ⊤ else .ofRat x.toRat

/-- The position of a number; what is not a number has none. -/
def position? (x : Binary f) : Option Position := if x.isNaN then none else some x.place

/-! ## Units and significands -/

/-- A magnitude determines the number of units and the significand that it is made of. -/
private theorem units_unique {p a b s t : ℕ} (hs : s < 2 * p) (ht : t < 2 * p)
    (ha : a = 0 ∨ p ≤ s) (hb : b = 0 ∨ p ≤ t) (h : a * p + s = b * p + t) : a = b ∧ s = t := by
  have hle {a b s t : ℕ} (hs : s < 2 * p) (hb : b = 0 ∨ p ≤ t)
      (h : a * p + s = b * p + t) : b ≤ a := by
    by_contra hlt
    have hmul : (a + 1) * p ≤ b * p := Nat.mul_le_mul_right p (by omega)
    rw [Nat.succ_mul] at hmul
    omega
  obtain rfl : a = b := le_antisymm (hle ht ha h.symm) (hle hs hb h)
  exact ⟨rfl, by omega⟩

/-- The number of units that a number lies above the least one. -/
private def above (x : Binary f) : ℕ := (x.exponent - f.leastExponent).toNat

private theorem exponent_eq (x : Binary f) : x.exponent = f.leastExponent + x.above := by
  simp [above, exponent]

/-- Only numbers in the least unit have small significands. -/
private theorem above_or_significand (x : Binary f) :
    x.above = 0 ∨ 2 ^ f.fractionBits ≤ x.significand := by
  by_cases hfield : x.exponentField = 0
  · left
    simp [above, exponent, hfield]
  · right
    rw [significand, if_neg hfield, Nat.one_shiftLeft]
    exact Nat.le_add_left _ _

/-- A magnitude is a whole number of the least units. -/
private theorem absRat_eq (x : Binary f) :
    x.absRat = (x.significand * 2 ^ x.above : ℕ) * (2 : ℚ) ^ f.leastExponent := by
  rw [absRat, exponent_eq, zpow_add₀ (by norm_num), zpow_natCast]
  push_cast
  ring

/-- Larger magnitudes are larger numbers. -/
theorem absRat_lt_absRat (h : x.magnitude.toNat < y.magnitude.toNat) :
    x.absRat < y.absRat := by
  have hx : x.above * 2 ^ f.fractionBits + x.significand = _ := magnitude_eq x
  have hy : y.above * 2 ^ f.fractionBits + y.significand = _ := magnitude_eq y
  have hxlt := significand_lt x
  have hylt := significand_lt y
  rw [pow_succ] at hxlt hylt
  rw [absRat_eq, absRat_eq]
  refine mul_lt_mul_of_pos_right (Nat.cast_lt.2 ?_) (by positivity)
  rcases lt_trichotomy x.above y.above with hlt | heq | hgt
  · -- The significand is at most doubled on the way to the next unit.
    have hnormal : 2 ^ f.fractionBits ≤ y.significand :=
      y.above_or_significand.resolve_left (by omega)
    calc x.significand * 2 ^ x.above
        < 2 ^ f.fractionBits * 2 * 2 ^ x.above := Nat.mul_lt_mul_of_pos_right hxlt (by positivity)
      _ = 2 ^ f.fractionBits * 2 ^ (x.above + 1) := by ring
      _ ≤ y.significand * 2 ^ y.above :=
        Nat.mul_le_mul hnormal (Nat.pow_le_pow_right (by decide) hlt)
  · rw [heq] at hx ⊢
    exact Nat.mul_lt_mul_of_pos_right (by omega) (by positivity)
  · have hnormal : 2 ^ f.fractionBits ≤ x.significand :=
      x.above_or_significand.resolve_left (by omega)
    have hmul : (y.above + 1) * 2 ^ f.fractionBits ≤ x.above * 2 ^ f.fractionBits :=
      Nat.mul_le_mul_right _ hgt
    rw [Nat.succ_mul] at hmul
    omega

/-- A magnitude that is not greater has a value that is not greater. -/
theorem absRat_le_absRat (h : x.magnitude.toNat ≤ y.magnitude.toNat) : x.absRat ≤ y.absRat := by
  rcases h.lt_or_eq with hlt | heq
  · exact (absRat_lt_absRat hlt).le
  -- With equal magnitudes only the signs may differ, which the value ignores.
  · obtain ⟨sx, m⟩ := x
    obtain ⟨sy, m'⟩ := y
    obtain rfl : m = m' := BitVec.eq_of_toNat_eq heq
    exact le_rfl

/-- Every magnitude but zero has a positive value. -/
theorem absRat_pos (h : 0 < x.magnitude.toNat) : 0 < x.absRat := by
  refine (zero_le_absRat (zero false)).trans_lt (absRat_lt_absRat ?_)
  simpa [zero, ofMagnitude] using h

private theorem absRat_eq_zero (h : x.magnitude.toNat = 0) : x.absRat = 0 := by
  simp [absRat, significand, exponentField, fraction, h]

/-! ## Positions -/

/-- Ranks are in the order of the numbers. -/
private theorem toRat_lt_toRat (h : x.rank < y.rank) : x.toRat < y.toRat := by
  have hx := zero_le_absRat x
  have hy := zero_le_absRat y
  unfold rank at h
  unfold toRat
  cases hxs : x.negative <;> cases hys : y.negative <;>
    simp only [hxs, hys, Bool.false_eq_true, if_false, if_true] at h ⊢
  · exact absRat_lt_absRat (by omega)
  · omega
  · -- One of the two is not zero.
    rcases Nat.eq_zero_or_pos x.magnitude.toNat with hzero | hpos
    · have hypos := absRat_pos (x := y) (by omega)
      linarith
    · have hxpos := absRat_pos hpos
      linarith
  · exact neg_lt_neg (absRat_lt_absRat (by omega))

/-- Ranks tell all numbers apart but the two zeros. -/
private theorem eq_or_zero_of_rank_eq (h : x.rank = y.rank) :
    x = y ∨ x.magnitude.toNat = 0 ∧ y.magnitude.toNat = 0 := by
  unfold rank at h
  -- One sign leaves the magnitude to decide, two signs meet only in zero.
  by_cases hsign : x.negative = y.negative
  · left
    have hmagnitude : x.magnitude.toNat = y.magnitude.toNat := by
      rw [hsign] at h
      split at h <;> omega
    obtain ⟨sx, mx⟩ := x
    obtain ⟨sy, my⟩ := y
    obtain rfl : sx = sy := hsign
    obtain rfl : mx = my := BitVec.eq_of_toNat_eq hmagnitude
    rfl
  · right
    cases hxs : x.negative <;> cases hys : y.negative <;>
      simp only [hxs, hys, Bool.false_eq_true, if_false, if_true, not_true_eq_false] at h hsign <;>
      omega

/-- The infinities lie at the ends of the line. -/
theorem place_of_isInfinite (h : x.isInfinite) : x.place = if x.negative then ⊥ else ⊤ := by
  rw [place, if_pos h]

/-- Every finite number lies at its value. -/
theorem place_of_not_isInfinite (h : x.isInfinite = false) :
    x.place = .ofRat x.toRat := by
  rw [place, h, if_neg (by decide)]

/-- The rank is the magnitude with the sign of the number. -/
private theorem abs_rank (x : Binary f) : |x.rank| = x.magnitude.toNat := by
  unfold rank
  split <;> simp

/-- The infinities have the outermost ranks. -/
private theorem rank_of_isInfinite (h : x.isInfinite) :
    x.rank = if x.negative then -(f.infinity : ℤ) else f.infinity := by
  have hmagnitude : x.magnitude.toNat = f.infinity := by simpa [isInfinite] using h
  rw [rank, hmagnitude]

/-- No number has a rank beyond those of the infinities. -/
private theorem abs_rank_le (h : x.isNaN = false) : |x.rank| ≤ f.infinity := by
  rw [abs_rank]
  simpa [isNaN] using h

/-- Ranks are in the order of the positions. -/
private theorem place_lt_place (hx : x.isNaN = false) (hy : y.isNaN = false)
    (h : x.rank < y.rank) : x.place < y.place := by
  have hxrank := abs_le.1 (abs_rank_le hx)
  have hyrank := abs_le.1 (abs_rank_le hy)
  cases hxi : x.isInfinite with
  | true =>
    -- Only the negative infinity has anything above it.
    have hxplace := place_of_isInfinite hxi
    have hxeq := rank_of_isInfinite hxi
    cases hxs : x.negative with
    | false =>
      rw [hxs] at hxeq
      simp only [Bool.false_eq_true, if_false] at hxeq
      omega
    | true =>
      rw [hxs] at hxeq
      simp only [if_true] at hxeq
      rw [hxplace, hxs, if_pos rfl, bot_lt_iff_ne_bot]
      cases hyi : y.isInfinite with
      | false =>
        rw [place_of_not_isInfinite hyi]
        exact WithBot.coe_ne_bot
      | true =>
        have hyeq := rank_of_isInfinite hyi
        cases hys : y.negative with
        | true =>
          rw [hys, if_pos rfl] at hyeq
          omega
        | false =>
          rw [place_of_isInfinite hyi, hys]
          exact WithBot.coe_ne_bot
  | false =>
    rw [place_of_not_isInfinite hxi]
    cases hyi : y.isInfinite with
    | false =>
      rw [place_of_not_isInfinite hyi]
      exact Position.ofRat_lt_ofRat.2 (toRat_lt_toRat h)
    | true =>
      have hyeq := rank_of_isInfinite hyi
      cases hys : y.negative with
      | true =>
        rw [hys, if_pos rfl] at hyeq
        omega
      | false =>
        rw [place_of_isInfinite hyi, hys]
        exact WithBot.coe_lt_coe.2 (WithTop.coe_lt_top _)

/-- Numbers of one rank have one position. -/
private theorem place_congr (hf : 0 < f.infinity) (h : x.rank = y.rank) : x.place = y.place := by
  obtain rfl | ⟨hx, hy⟩ := eq_or_zero_of_rank_eq h
  · rfl
  · have hfinite (z : Binary f) (hz : z.magnitude.toNat = 0) : z.place = .ofRat 0 := by
      have hzi : z.isInfinite = false := by simp [isInfinite, hz, hf.ne]
      rw [place_of_not_isInfinite hzi, toRat, absRat_eq_zero hz, neg_zero, ite_self]
    rw [hfinite x hx, hfinite y hy]

/-- Ranks are in the order of the positions. -/
theorem rank_lt_rank_iff (hf : 0 < f.infinity) (hx : x.isNaN = false) (hy : y.isNaN = false) :
    x.rank < y.rank ↔ x.place < y.place := by
  refine ⟨place_lt_place hx hy, fun h => ?_⟩
  rcases lt_trichotomy x.rank y.rank with hlt | heq | hgt
  · exact hlt
  · exact absurd (place_congr hf heq) h.ne
  · exact absurd (place_lt_place hy hx hgt) h.not_gt

/-- Numbers of one rank are those at one place, so the two zeros are one. -/
theorem rank_eq_rank_iff (hf : 0 < f.infinity) (hx : x.isNaN = false) (hy : y.isNaN = false) :
    x.rank = y.rank ↔ x.place = y.place := by
  have hxy := rank_lt_rank_iff hf hx hy
  have hyx := rank_lt_rank_iff hf hy hx
  -- From equal places neither rank can be the lesser.
  refine ⟨place_congr hf, fun h => ?_⟩
  rw [h] at hxy hyx
  exact le_antisymm (not_lt.1 fun hlt => (hyx.1 hlt).false) (not_lt.1 fun hlt => (hxy.1 hlt).false)

/-! ## Comparisons -/

/-- A number has a position, and a NaN has none. -/
theorem position?_eq_some {a : Position} :
    x.position? = some a ↔ x.isNaN = false ∧ x.place = a := by
  unfold position?
  cases x.isNaN <;> simp

/-- One number is less than another where it lies below it, and a NaN lies nowhere. -/
theorem lt_iff (hf : 0 < f.infinity) :
    lt x y ↔ ∃ a b, x.position? = some a ∧ y.position? = some b ∧ a < b := by
  simp only [lt, ordered, Bool.and_eq_true, Bool.not_eq_true', decide_eq_true_eq,
    position?_eq_some]
  constructor
  · rintro ⟨⟨hx, hy⟩, hlt⟩
    exact ⟨_, _, ⟨hx, rfl⟩, ⟨hy, rfl⟩, (rank_lt_rank_iff hf hx hy).1 hlt⟩
  · rintro ⟨_, _, ⟨hx, rfl⟩, ⟨hy, rfl⟩, hlt⟩
    exact ⟨⟨hx, hy⟩, (rank_lt_rank_iff hf hx hy).2 hlt⟩

/-- One number is at most another where it does not lie above it, and a NaN lies nowhere. -/
theorem le_iff (hf : 0 < f.infinity) :
    le x y ↔ ∃ a b, x.position? = some a ∧ y.position? = some b ∧ a ≤ b := by
  simp only [le, ordered, Bool.and_eq_true, Bool.not_eq_true', decide_eq_true_eq,
    position?_eq_some]
  constructor
  -- What is at most the other is not greater, so the strict comparison is turned around.
  · rintro ⟨⟨hx, hy⟩, hle⟩
    refine ⟨_, _, ⟨hx, rfl⟩, ⟨hy, rfl⟩, ?_⟩
    rw [← not_lt, ← rank_lt_rank_iff hf hy hx]
    exact not_lt.2 hle
  · rintro ⟨_, _, ⟨hx, rfl⟩, ⟨hy, rfl⟩, hle⟩
    refine ⟨⟨hx, hy⟩, ?_⟩
    rw [← not_lt, rank_lt_rank_iff hf hy hx]
    exact not_lt.2 hle

/-- Two numbers are equal where they lie at one place, and a NaN equals nothing. -/
theorem eq_iff (hf : 0 < f.infinity) :
    eq x y ↔ ∃ a, x.position? = some a ∧ y.position? = some a := by
  simp only [eq, ordered, Bool.and_eq_true, Bool.not_eq_true', beq_iff_eq, position?_eq_some]
  constructor
  · rintro ⟨⟨hx, hy⟩, heq⟩
    exact ⟨_, ⟨hx, rfl⟩, hy, ((rank_eq_rank_iff hf hx hy).1 heq).symm⟩
  · rintro ⟨_, ⟨hx, rfl⟩, hy, heq⟩
    exact ⟨⟨hx, hy⟩, (rank_eq_rank_iff hf hx hy).2 heq.symm⟩

/-! ## Numbers that a format has -/

/-- The magnitude of infinity fits, and so do those of all finite numbers. -/
theorem infinity_lt (f : Format) : f.infinity < 2 ^ f.magnitudeBits := by
  unfold Format.infinity Format.magnitudeBits
  rw [Nat.one_shiftLeft, Nat.shiftLeft_eq, pow_add]
  exact Nat.mul_lt_mul_of_pos_right (Nat.sub_lt (by positivity) one_pos) (by positivity)

/-- Building a number from a magnitude in range keeps the magnitude. -/
theorem toNat_magnitude_ofMagnitude (negative : Bool) {m : ℕ} (hm : m < 2 ^ f.magnitudeBits) :
    (ofMagnitude negative m : Binary f).magnitude.toNat = m := by
  rw [show (ofMagnitude negative m : Binary f).magnitude = BitVec.ofNat _ _ from rfl,
    BitVec.toNat_ofNat, Nat.mod_eq_of_lt hm]

/-- The number with a given significand in a given unit. -/
private theorem absRat_ofMagnitude (negative : Bool) {e s : ℕ} (hs : s < 2 * 2 ^ f.fractionBits)
    (hsplit : e = 0 ∨ 2 ^ f.fractionBits ≤ s)
    (hm : e * 2 ^ f.fractionBits + s < 2 ^ f.magnitudeBits) :
    (ofMagnitude negative (e * 2 ^ f.fractionBits + s) : Binary f).absRat =
      s * (2 : ℚ) ^ (f.leastExponent + e) := by
  set x : Binary f := ofMagnitude negative (e * 2 ^ f.fractionBits + s) with hx
  have hmagnitude := toNat_magnitude_ofMagnitude (f := f) negative hm
  rw [← hx] at hmagnitude
  -- Both splits of the magnitude are normal, so they are the same.
  have hparts : x.above * 2 ^ f.fractionBits + x.significand = _ := magnitude_eq x
  have hlt := significand_lt x
  rw [pow_succ, mul_comm] at hlt
  obtain ⟨habove, hsignificand⟩ :=
    units_unique hlt hs x.above_or_significand hsplit (hparts.trans hmagnitude)
  rw [absRat, exponent_eq, habove, hsignificand]

/-- The next magnitude is that of a number one unit larger. -/
theorem absRat_succ (negative : Bool) (h : x.isFinite) :
    (ofMagnitude negative (x.magnitude.toNat + 1) : Binary f).absRat =
      x.absRat + (2 : ℚ) ^ x.exponent := by
  have hparts : x.above * 2 ^ f.fractionBits + x.significand = _ := magnitude_eq x
  have hlt := significand_lt x
  rw [pow_succ, mul_comm] at hlt
  -- The next magnitude is at most that of the infinity.
  have hroom : x.magnitude.toNat + 1 < 2 ^ f.magnitudeBits := by
    have hfinite : x.magnitude.toNat < f.infinity := by simpa [isFinite] using h
    have hinfinity := infinity_lt f
    omega
  have hnormal := x.above_or_significand
  have hvalue : x.absRat + 2 ^ x.exponent =
      (x.significand + 1 : ℕ) * (2 : ℚ) ^ (f.leastExponent + x.above) := by
    rw [absRat, exponent_eq, Nat.cast_succ, add_one_mul]
  rw [hvalue]
  -- Either the significand grows within its unit or the unit grows.
  rcases Nat.lt_or_ge (x.significand + 1) (2 * 2 ^ f.fractionBits) with hsame | hnext
  · have hmagnitude : x.magnitude.toNat + 1 =
        x.above * 2 ^ f.fractionBits + (x.significand + 1) := by omega
    rw [hmagnitude] at hroom ⊢
    exact absRat_ofMagnitude negative hsame (by omega) hroom
  · -- The significand is full, and the next number is the first one of the next unit.
    have hfull : x.significand + 1 = 2 * 2 ^ f.fractionBits := by omega
    have hmagnitude : x.magnitude.toNat + 1 =
        (x.above + 1) * 2 ^ f.fractionBits + 2 ^ f.fractionBits := by
      rw [Nat.succ_mul]
      omega
    have hless : 2 ^ f.fractionBits < 2 * 2 ^ f.fractionBits := by
      have hpos : 0 < 2 ^ f.fractionBits := by positivity
      omega
    rw [hmagnitude] at hroom ⊢
    rw [absRat_ofMagnitude negative hless (.inr le_rfl) hroom, hfull, Nat.cast_succ, ← add_assoc,
      zpow_add_one₀ (by norm_num)]
    push_cast
    ring

/-- A format has every number with few enough digits, in a unit that is neither too small nor too
    large. -/
theorem exists_absRat (negative : Bool) {s k : ℕ} (hs : s < 2 ^ (f.fractionBits + 1))
    (hk : (k + 2) * 2 ^ f.fractionBits ≤ f.infinity) :
    ∃ x : Binary f, x.isFinite ∧ x.negative = negative ∧
      x.absRat = s * (2 : ℚ) ^ (f.leastExponent + k) := by
  induction k generalizing s with
  | zero =>
    rw [pow_succ, mul_comm] at hs
    have hm : 0 * 2 ^ f.fractionBits + s < f.infinity := by omega
    exact ⟨_, isFinite_ofMagnitude hm, rfl,
      absRat_ofMagnitude negative hs (.inl rfl) (hm.trans (infinity_lt f))⟩
  | succ k ih =>
    have hmul : (k + 1 + 2) * 2 ^ f.fractionBits = (k + 1) * 2 ^ f.fractionBits +
        2 * 2 ^ f.fractionBits := by ring
    by_cases hnormal : 2 ^ f.fractionBits ≤ s
    · rw [pow_succ, mul_comm] at hs
      have hm : (k + 1) * 2 ^ f.fractionBits + s < f.infinity := by omega
      exact ⟨_, isFinite_ofMagnitude hm, rfl,
        absRat_ofMagnitude negative hs (.inr hnormal) (hm.trans (infinity_lt f))⟩
    · -- There is room for another digit, and the unit may be smaller.
      obtain ⟨x, hfinite, hsign, habs⟩ := ih (s := 2 * s) (by rw [pow_succ]; omega)
        (le_trans (Nat.mul_le_mul_right _ (by omega)) hk)
      refine ⟨x, hfinite, hsign, habs.trans ?_⟩
      push_cast
      rw [← add_assoc, zpow_add_one₀ (by norm_num)]
      ring

/-! ## Positions that are kept -/

/-- A finite number has its value for a position. -/
private theorem position?_of_isFinite (h : x.isFinite) : x.position? = some (.ofRat x.toRat) := by
  obtain ⟨hnan, hinfinite⟩ := (isFinite_iff x).1 h
  rw [position?, hnan, if_neg (by decide), place_of_not_isInfinite hinfinite]

/-- A number that a format has is rounded to itself. -/
private theorem ofAbsRat_of_exists {negative : Bool} {q : ℚ}
    (h : ∃ x : Binary f, x.isFinite ∧ x.negative = negative ∧ x.absRat = q) :
    (ofAbsRat negative q : Binary f).isFinite ∧
      (ofAbsRat negative q : Binary f).toRat = if negative then -q else q := by
  obtain ⟨x, hfinite, rfl, rfl⟩ := h
  rw [ofAbsRat_absRat hfinite]
  exact ⟨hfinite, rfl⟩

/-- How far the units of the 32-bit format go. -/
private theorem above_le {x : Single} (h : x.isFinite) : x.above ≤ 253 := by
  have hparts : x.above * _ + x.significand = _ := magnitude_eq x
  have hmagnitude : x.magnitude.toNat < Format.single.infinity := by
    simpa [isFinite] using h
  have hnormal := x.above_or_significand
  rw [Format.single_fractionBits] at hparts hnormal
  rw [Format.single_infinity] at hmagnitude
  omega

/-- The 64-bit format has the numbers of the 32-bit one. -/
private theorem exists_double {x : Single} (h : x.isFinite) :
    ∃ y : Double, y.isFinite ∧ y.negative = x.negative ∧ y.absRat = x.absRat := by
  have habove := above_le h
  have hdigits : x.significand < 2 ^ (Format.double.fractionBits + 1) :=
    (significand_lt x).trans_le (Nat.pow_le_pow_right (by decide) (by decide))
  have hroom : (x.above + 925 + 2) * 2 ^ Format.double.fractionBits ≤ Format.double.infinity := by
    rw [Format.double_infinity, Format.double_fractionBits]
    exact Nat.mul_le_mul_right _ (by omega)
  obtain ⟨y, hy, hsign, habs⟩ := exists_absRat x.negative hdigits hroom
  refine ⟨y, hy, hsign, ?_⟩
  rw [habs, absRat, exponent_eq, Format.double_leastExponent, Format.single_leastExponent]
  push_cast
  ring_nf

/-- The numbers of the 32-bit format are where they are in the 64-bit one. -/
theorem position?_convert (x : Single) : (x.convert : Double).position? = x.position? := by
  unfold convert
  cases hnan : x.isNaN with
  | true =>
    have hnone : (nan : Double).isNaN := by decide
    rw [if_pos rfl, position?, position?, hnan, hnone, if_pos rfl, if_pos rfl]
  | false =>
    rw [if_neg (by decide)]
    -- Infinities are converted by their sign, and finite numbers are rounded to what they are.
    cases hinfinite : x.isInfinite with
    | true =>
      have hsame (negative : Bool) :
          (infinity negative : Double).isNaN = false ∧ (infinity negative : Double).isInfinite := by
        cases negative <;> decide
      obtain ⟨hnumber, hinfinite'⟩ := hsame x.negative
      have hnegative : (infinity x.negative : Double).negative = x.negative := rfl
      rw [if_pos rfl, position?, position?, hnan, hnumber, place_of_isInfinite hinfinite,
        place_of_isInfinite hinfinite', hnegative, if_neg (by decide)]
    | false =>
      have hfinite : x.isFinite := (isFinite_iff x).2 ⟨hnan, hinfinite⟩
      obtain ⟨hround, hvalue⟩ := ofAbsRat_of_exists (exists_double hfinite)
      rw [if_neg (by decide), position?_of_isFinite hround, position?_of_isFinite hfinite, hvalue,
        toRat]

/-- A format has the integers up to the power of two that no longer fits in a significand. -/
private theorem exists_natCast {s k : ℕ} (hleast : f.leastExponent = -k)
    (hroom : (k + 3) * 2 ^ f.fractionBits ≤ f.infinity) (hs : s ≤ 2 ^ (f.fractionBits + 1))
    (negative : Bool) : ∃ x : Binary f, x.isFinite ∧ x.negative = negative ∧ x.absRat = s := by
  have hunit : (2 : ℚ) ^ (f.leastExponent + k) = 1 := by rw [hleast, neg_add_cancel, zpow_zero]
  rcases hs.lt_or_eq with hlt | rfl
  · obtain ⟨x, hx⟩ := exists_absRat negative hlt (k := k)
      (le_trans (Nat.mul_le_mul_right _ (by omega)) hroom)
    rw [hunit, mul_one] at hx
    exact ⟨x, hx⟩
  · -- This one has the digits of half of it, in the next unit.
    obtain ⟨x, hx⟩ := exists_absRat negative (f := f) (k := k + 1)
      (Nat.pow_lt_pow_right (by decide) (Nat.lt_succ_self _)) hroom
    have hnext : (2 : ℚ) ^ (f.leastExponent + (k + 1 : ℕ)) = 2 := by
      rw [Nat.cast_succ, ← add_assoc, zpow_add_one₀ (by norm_num), hunit, one_mul]
    rw [hnext] at hx
    refine ⟨x, hx.1, hx.2.1, hx.2.2.trans ?_⟩
    push_cast
    rw [pow_succ]

/-- An integer with no more digits than a significand is where it is. -/
theorem position?_ofInt {n : ℤ} {k : ℕ} (hleast : f.leastExponent = -k)
    (hroom : (k + 3) * 2 ^ f.fractionBits ≤ f.infinity)
    (hn : n.natAbs ≤ 2 ^ (f.fractionBits + 1)) :
    (ofInt n : Binary f).position? = some (.ofRat n) := by
  have hround (negative : Bool) := ofAbsRat_of_exists (exists_natCast hleast hroom hn negative)
  unfold ofInt ofRat
  -- Rounding starts from the absolute value of the number.
  have hcast : ((n.natAbs : ℕ) : ℚ) = |(n : ℚ)| := by
    rw [Nat.cast_natAbs, Int.cast_abs]
  rw [hcast] at hround
  split
  next hneg =>
    obtain ⟨hfinite, hvalue⟩ := hround true
    rw [abs_of_neg hneg] at hfinite hvalue
    rw [position?_of_isFinite hfinite, hvalue, if_pos rfl, Rat.neg_neg]
  next hpos =>
    obtain ⟨hfinite, hvalue⟩ := hround false
    rw [abs_of_nonneg (not_lt.1 hpos)] at hfinite hvalue
    rw [position?_of_isFinite hfinite, hvalue, if_neg (by decide)]

end Binary

end Weir
