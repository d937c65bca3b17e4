import Weir.Binary.Text
import Weir.Proofs.DecimalText
import Weir.Proofs.NumberLine

/-!
# Shortest decimals

The shortest decimal of a finite number other than zero lies between the midpoints to the two
neighbours of the number. The search for it ends on a grid that is fine enough for that: its step
is less than half a unit of the number. Intervals around different numbers do not meet, not even in
their ends, which belong to numbers with even magnitudes only. So the text of a number determines
it.

## Key results

- `Decimal.inside_coarsest`: what the search for a decimal finds
- `Binary.magnitude_eq_of_covers`: no two magnitudes cover the same rational
- `Binary.covers_shortest`: a number covers its shortest decimal
- `Binary.eq_of_toText`: numbers of a format with the same text are the same
-/

namespace Weir

/-! ## The search -/

namespace Decimal

variable {inside : ℚ → Bool} {q : ℚ}

/-- What a grid is found to have inside is inside. -/
private theorem inside_of_nearest? {e : ℤ} {digits : ℕ} (h : nearest? inside q e = some digits) :
    inside (digits * 10 ^ e) := by
  have hupper (n : ℕ) : (n : ℚ) * 10 ^ e + 10 ^ e = (n + 1 : ℕ) * 10 ^ e := by
    push_cast
    ring
  unfold nearest? at h
  dsimp only at h
  rw [hupper] at h
  split at h
  next hlower habove =>
    split at h <;> cases h
    · exact hlower
    · exact habove
  next hlower _ =>
    cases h
    exact hlower
  next _ habove =>
    cases h
    exact habove
  next => cases h

/-- A grid has something inside if all that follows within a step is inside. -/
private theorem exists_nearest? {e : ℤ} (hq : 0 ≤ q) (h : ∀ p, q < p → p ≤ q + 10 ^ e → inside p) :
    ∃ digits, nearest? inside q e = some digits := by
  have hstep : (0 : ℚ) < 10 ^ e := by positivity
  set n := (q / 10 ^ e).floor.toNat with hn
  have hnonneg : 0 ≤ (q / 10 ^ e).floor := Rat.le_floor_iff.2 (by positivity)
  have hcast : (n : ℚ) = ((q / 10 ^ e).floor : ℚ) := by
    rw [hn, ← Int.cast_natCast, Int.toNat_of_nonneg hnonneg]
  -- The number lies between two neighbours of the grid.
  have hlower : (n : ℚ) * 10 ^ e ≤ q := by
    rw [hcast, ← le_div_iff₀ hstep]
    exact Rat.floor_le _
  have hupper : q < n * 10 ^ e + 10 ^ e := by
    rw [hcast, ← add_one_mul, ← div_lt_iff₀ hstep]
    exact_mod_cast Rat.lt_floor_add_one _
  -- The upper one is close enough to be inside.
  have hinside := h _ hupper (by linarith)
  unfold nearest?
  dsimp only
  rw [← hn, hinside]
  cases inside (n * 10 ^ e) <;> simp

/-- The search finds something inside, if the last grid that is tried has something inside. -/
theorem inside_coarsest {n : ℕ} {e : ℤ} (h : ∃ digits, nearest? inside q (e - n) = some digits) :
    inside (coarsest inside q (n + 1) e).toRat := by
  induction n generalizing e with
  | zero =>
    obtain ⟨digits, hdigits⟩ := h
    rw [Nat.cast_zero, sub_zero] at hdigits
    rw [coarsest, hdigits]
    exact inside_of_nearest? hdigits
  | succ n ih =>
    rw [coarsest]
    split
    next digits hdigits => exact inside_of_nearest? hdigits
    -- No number of this grid is inside, so a finer one is searched.
    next hnone =>
      refine ih ?_
      rwa [sub_sub, add_comm (1 : ℤ), ← Nat.cast_succ]

end Decimal

/-! ## Powers of ten -/

/-- Small powers of ten are below those powers of two that have three times the exponent. -/
private theorem zpow_ten_lt_of_nonpos {e k : ℤ} (he : e ≤ 0) (h : 3 * e < k) :
    (10 : ℚ) ^ e < 2 ^ k := by
  obtain ⟨n, rfl⟩ : ∃ n : ℕ, e = -n := ⟨e.natAbs, by omega⟩
  have height : (8 : ℚ) ^ n ≤ 10 ^ n := pow_le_pow_left₀ (by norm_num) (by norm_num) n
  calc (10 : ℚ) ^ (-(n : ℤ)) = (10 ^ n)⁻¹ := by rw [zpow_neg, zpow_natCast]
    _ ≤ (8 ^ n)⁻¹ := inv_anti₀ (by positivity) height
    _ = 2 ^ (3 * -(n : ℤ)) := by
      rw [zpow_mul, zpow_neg, zpow_natCast]
      norm_num
    _ < 2 ^ k := zpow_lt_zpow_right₀ (by norm_num) h

/-- The third power of ten is below the tenth power of two. -/
private theorem zpow_ten_lt_of_nonneg {e k : ℤ} (he : 0 ≤ e) (h : 10 * e < 3 * k) :
    (10 : ℚ) ^ e < 2 ^ k := by
  obtain ⟨n, rfl⟩ := Int.eq_ofNat_of_zero_le he
  obtain ⟨m, rfl⟩ := Int.eq_ofNat_of_zero_le (show 0 ≤ k by omega)
  rw [zpow_natCast, zpow_natCast]
  refine lt_of_pow_lt_pow_left₀ 3 (by positivity) ?_
  calc ((10 : ℚ) ^ n) ^ 3 = 1000 ^ n := by rw [← pow_mul, mul_comm, pow_mul]; norm_num
    _ ≤ 1024 ^ n := pow_le_pow_left₀ (by norm_num) (by norm_num) n
    _ = 2 ^ (10 * n) := by rw [pow_mul]; norm_num
    _ < 2 ^ (3 * m) := pow_lt_pow_right₀ (by norm_num) (by omega)
    _ = (2 ^ m) ^ 3 := by rw [← pow_mul, mul_comm]

/-- The exponents of a format are in proportion to its digits. Then the number of grids that are
    tried is enough, although the logarithm of two is not exact. -/
structure Format.IsProportionate (f : Format) : Prop where
  low : 0 ≤ f.leastExponent + 20 * f.fractionBits + 60
  high : 2 ^ f.exponentBits ≤ 500 * f.fractionBits

/-! ## Intervals around numbers -/

namespace Binary

variable {f : Format} {x y : Binary f} {q : ℚ}

/-- The midpoint to the number below. -/
def least (x : Binary f) : ℚ :=
  ((ofMagnitude false (x.magnitude.toNat - 1) : Binary f).absRat + x.absRat) / 2

/-- The midpoint to the number above. -/
def greatest (x : Binary f) : ℚ :=
  (x.absRat + (ofMagnitude false (x.magnitude.toNat + 1) : Binary f).absRat) / 2

/-- The ends of the stretch belong to the even magnitudes. -/
theorem covers_iff : x.covers q ↔
    if x.magnitude.toNat % 2 = 0 then x.least ≤ q ∧ q ≤ x.greatest
    else x.least < q ∧ q < x.greatest := by
  unfold covers
  dsimp only
  split <;> simp [least, greatest]

/-- Every magnitude covers what lies between the ends. -/
private theorem covers_of_lt (hleast : x.least < q) (hgreatest : q < x.greatest) : x.covers q := by
  rw [covers_iff]
  split
  · exact ⟨hleast.le, hgreatest.le⟩
  · exact ⟨hleast, hgreatest⟩

/-- Nothing beyond the ends is covered. -/
private theorem le_of_covers (h : x.covers q) : x.least ≤ q ∧ q ≤ x.greatest := by
  rw [covers_iff] at h
  split at h
  · exact h
  · exact ⟨h.1.le, h.2.le⟩

/-- An odd magnitude does not cover the ends. -/
private theorem lt_of_covers (h : x.covers q) (hodd : x.magnitude.toNat % 2 ≠ 0) :
    x.least < q ∧ q < x.greatest := by
  rwa [covers_iff, if_neg hodd] at h

/-- The magnitudes around that of a finite number. -/
private theorem toNat_neighbours (h : x.isFinite) :
    (ofMagnitude false (x.magnitude.toNat - 1) : Binary f).magnitude.toNat =
        x.magnitude.toNat - 1 ∧
      (ofMagnitude false (x.magnitude.toNat + 1) : Binary f).magnitude.toNat =
        x.magnitude.toNat + 1 := by
  have hfinite : x.magnitude.toNat < f.infinity := by simpa [isFinite] using h
  have hroom := infinity_lt f
  exact ⟨toNat_magnitude_ofMagnitude _ (by omega), toNat_magnitude_ofMagnitude _ (by omega)⟩

/-- The stretch of a number begins below it. -/
private theorem least_lt_absRat (h : x.isFinite) (hpos : 0 < x.magnitude.toNat) :
    x.least < x.absRat := by
  have hbelow : (ofMagnitude false (x.magnitude.toNat - 1) : Binary f).absRat < x.absRat := by
    refine absRat_lt_absRat ?_
    rw [(toNat_neighbours h).1]
    omega
  unfold least
  linarith

/-- Only zero covers zero. -/
private theorem least_pos (hpos : 0 < x.magnitude.toNat) : 0 < x.least := by
  have hx := absRat_pos hpos
  have hbelow := zero_le_absRat (ofMagnitude false (x.magnitude.toNat - 1) : Binary f)
  unfold least
  linarith

/-- The stretch of a number ends half a unit above it. -/
private theorem greatest_eq (h : x.isFinite) : x.greatest = x.absRat + 2 ^ (x.exponent - 1) := by
  rw [greatest, absRat_succ false h, zpow_sub_one₀ (by norm_num)]
  ring

/-- Intervals around different numbers do not meet, unless in an end of theirs that is odd for one
    of the two. -/
private theorem not_covers_of_lt (hx : x.isFinite) (hy : y.isFinite)
    (h : x.magnitude.toNat < y.magnitude.toNat) (hxq : x.covers q) : ¬ y.covers q := by
  intro hyq
  have habove := (toNat_neighbours hx).2
  have hbelow := (toNat_neighbours hy).1
  have hleft : x.absRat ≤ (ofMagnitude false (y.magnitude.toNat - 1) : Binary f).absRat :=
    absRat_le_absRat (by omega)
  obtain ⟨-, hxle⟩ := le_of_covers hxq
  obtain ⟨hyle, -⟩ := le_of_covers hyq
  -- Stretches of neighbours touch, and all others are apart.
  rcases Nat.lt_or_ge (x.magnitude.toNat + 1) y.magnitude.toNat with hfar | hnext
  · have hright : (ofMagnitude false (x.magnitude.toNat + 1) : Binary f).absRat < y.absRat :=
      absRat_lt_absRat (by omega)
    unfold greatest at hxle
    unfold least at hyle
    linarith
  · have hright : (ofMagnitude false (x.magnitude.toNat + 1) : Binary f).absRat ≤ y.absRat :=
      absRat_le_absRat (by omega)
    have hends : x.greatest ≤ y.least := by
      unfold greatest least
      linarith
    -- Only one of two neighbours is even, and the end they share belongs to it.
    rcases Nat.mod_two_eq_zero_or_one x.magnitude.toNat with heven | hodd
    · have hlt := (lt_of_covers hyq (by omega)).1
      linarith
    · have hlt := (lt_of_covers hxq (by omega)).2
      linarith

/-- No two magnitudes cover the same rational. -/
theorem magnitude_eq_of_covers (hx : x.isFinite) (hy : y.isFinite) (hxq : x.covers q)
    (hyq : y.covers q) : x.magnitude = y.magnitude := by
  refine BitVec.eq_of_toNat_eq ?_
  rcases lt_trichotomy x.magnitude.toNat y.magnitude.toNat with hlt | heq | hgt
  · exact absurd hyq (not_covers_of_lt hx hy hlt hxq)
  · exact heq
  · exact absurd hxq (not_covers_of_lt hy hx hgt hyq)

/-! ## The shortest decimal -/

/-- The exponent of a number is not far above the least one. -/
private theorem exponent_le (x : Binary f) : x.exponent ≤ 2 ^ f.exponentBits + 1 := by
  have hfield : x.exponentField < 2 ^ f.exponentBits := by
    unfold exponentField
    rw [Nat.shiftRight_eq_div_pow, Nat.div_lt_iff_lt_mul (by positivity), ← pow_add]
    exact x.magnitude.isLt
  have hleast : f.leastExponent ≤ 1 := by
    unfold Format.leastExponent
    omega
  have hcast : (x.exponentField : ℤ) < 2 ^ f.exponentBits := by exact_mod_cast hfield
  unfold exponent
  omega

/-- The last grid that is tried has a step of less than half a unit. -/
private theorem zpow_ten_lt (hf : f.IsProportionate) (hpos : 0 < x.magnitude.toNat) :
    (10 : ℚ) ^ (decadeAbove x.absRat - (f.fractionBits + 4 : ℕ)) < 2 ^ (x.exponent - 1) := by
  -- The number has no more binary digits than its significand and its exponent.
  have hlog : floorLog2 x.absRat < f.fractionBits + 1 + x.exponent := by
    have hsignificand : (x.significand : ℚ) < 2 ^ ((f.fractionBits : ℤ) + 1) := by
      have hlt := significand_lt x
      rw [← Nat.cast_succ, zpow_natCast]
      exact_mod_cast hlt
    have hlt : x.absRat < 2 ^ (f.fractionBits + 1 + x.exponent) := by
      rw [absRat, zpow_add₀ (by norm_num)]
      exact mul_lt_mul_of_pos_right hsignificand (by positivity)
    have hpowers := (zpow_floorLog2_le (absRat_pos hpos)).trans_lt hlt
    rwa [zpow_lt_zpow_iff_right₀ (by norm_num)] at hpowers
  have hlow := hf.low
  have hhigh : x.exponent ≤ 500 * f.fractionBits + 1 := by
    have hbits : (2 : ℤ) ^ f.exponentBits ≤ 500 * f.fractionBits := by exact_mod_cast hf.high
    have hle := exponent_le x
    omega
  have hexponent : f.leastExponent ≤ x.exponent := by simp [exponent]
  unfold decadeAbove
  set e := (floorLog2 x.absRat + 2) * 30103 / 100000 + 1 - ((f.fractionBits + 4 : ℕ) : ℤ) with he
  -- Which bound holds for a power of ten depends on the sign of its exponent.
  rcases le_total e 0 with hneg | hnonneg
  · exact zpow_ten_lt_of_nonpos hneg (by omega)
  · exact zpow_ten_lt_of_nonneg hnonneg (by omega)

/-- A number covers its shortest decimal. -/
theorem covers_shortest (hf : f.IsProportionate) (h : x.isFinite)
    (hpos : 0 < x.magnitude.toNat) : x.covers x.shortest.toRat := by
  refine Decimal.inside_coarsest (Decimal.exists_nearest? (zero_le_absRat x) fun p hp hstep => ?_)
  refine covers_of_lt ((least_lt_absRat h hpos).trans hp) ?_
  have hlt := zpow_ten_lt hf hpos
  rw [greatest_eq h]
  linarith

/-! ## Text -/

/-- The text of a number without its sign. -/
def body (x : Binary f) : String :=
  if x.isInfinite then "inf" else if x.isZero then "0" else x.shortest.positional

/-- A number is written as its sign and its digits. -/
theorem toText_eq (h : x.isNaN = false) :
    x.toText = if x.negative then "-" ++ x.body else x.body := by
  rw [toText, h, if_neg (by decide)]
  rfl

/-- What a number is written with, besides its sign. -/
theorem mem_body {c : Char} (h : c ∈ x.body.toList) : c.isDigit ∨ c ∈ ['.', 'i', 'n', 'f'] := by
  unfold body at h
  split at h
  · have hmem : c ∈ ['i', 'n', 'f'] := h
    exact .inr (List.mem_cons_of_mem _ hmem)
  split at h
  · have hmem : c ∈ ['0'] := h
    rw [List.mem_singleton.1 hmem]
    exact .inl rfl
  · rcases Decimal.isDigit_or_point_of_mem_positional h with hdigit | rfl
    · exact .inl hdigit
    · exact .inr List.mem_cons_self

/-- The decimal that is written for a finite number. -/
def decimal (x : Binary f) : Decimal := if x.isZero then ⟨0, 0⟩ else x.shortest

/-- A finite number is written by its decimal. -/
private theorem body_eq (h : x.isInfinite = false) : x.body = x.decimal.positional := by
  rw [body, h, if_neg (by decide), decimal]
  split <;> rfl

/-- The decimal of a number other than zero is within the interval around it, which is positive. -/
private theorem covers_decimal (hf : f.IsProportionate) (h : x.isFinite) (hne : ¬ x.isZero) :
    x.covers x.decimal.toRat ∧ 0 < x.decimal.toRat := by
  have hpos : 0 < x.magnitude.toNat := Nat.pos_of_ne_zero (by simpa [isZero] using hne)
  have hcovers := covers_shortest hf h hpos
  rw [decimal, if_neg hne]
  exact ⟨hcovers, (least_pos hpos).trans_le (le_of_covers hcovers).1⟩

/-- Decimals of the same value are written for numbers of the same magnitude only. -/
private theorem magnitude_eq_of_decimal (hf : f.IsProportionate) (hx : x.isFinite) (hy : y.isFinite)
    (h : x.decimal.toRat = y.decimal.toRat) : x.magnitude = y.magnitude := by
  have hzero {z : Binary f} (hz : z.isZero) : z.decimal.toRat = 0 := by
    simp [decimal, hz, Decimal.toRat]
  by_cases hxz : x.isZero <;> by_cases hyz : y.isZero
  · refine BitVec.eq_of_toNat_eq ?_
    simp only [isZero, beq_iff_eq] at hxz hyz
    rw [hxz, hyz]
  · rw [hzero hxz] at h
    exact absurd h (covers_decimal hf hy hyz).2.ne
  · rw [hzero hyz] at h
    exact absurd h (covers_decimal hf hx hxz).2.ne'
  -- Both numbers cover the one decimal, so they are the same.
  · have hycovers := (covers_decimal hf hy hyz).1
    rw [← h] at hycovers
    exact magnitude_eq_of_covers hx hy (covers_decimal hf hx hxz).1 hycovers

/-- Numbers with the same text besides their signs have the same magnitude. -/
private theorem magnitude_eq_of_body (hf : f.IsProportionate) (hx : x.isNaN = false)
    (hy : y.isNaN = false) (h : x.body = y.body) : x.magnitude = y.magnitude := by
  -- Only the name of infinity has letters.
  have hletters {z : Binary f} (hz : z.isInfinite = false) : 'i' ∉ z.body.toList := by
    rw [body_eq hz]
    intro hmem
    rcases Decimal.isDigit_or_point_of_mem_positional hmem with hdigit | hpoint
    · cases hdigit
    · cases hpoint
  have hname {z : Binary f} (hz : z.isInfinite) : 'i' ∈ z.body.toList := by
    rw [body, if_pos hz]
    exact List.mem_cons_self
  cases hxi : x.isInfinite <;> cases hyi : y.isInfinite
  · rw [body_eq hxi, body_eq hyi] at h
    exact magnitude_eq_of_decimal hf ((isFinite_iff x).2 ⟨hx, hxi⟩) ((isFinite_iff y).2 ⟨hy, hyi⟩)
      (Decimal.toRat_of_positional_eq h)
  · exact absurd (h ▸ hname hyi) (hletters hxi)
  · exact absurd (h ▸ hname hxi) (hletters hyi)
  · refine BitVec.eq_of_toNat_eq ?_
    simp only [isInfinite, beq_iff_eq] at hxi hyi
    rw [hxi, hyi]

/-- Numbers of a format with the same text are the same. -/
theorem eq_of_toText (hf : f.IsProportionate) (hx : x.isNaN = false) (hy : y.isNaN = false)
    (h : x.toText = y.toText) : x = y := by
  -- A sign is written before the digits and never among them.
  have hsign (z : Binary f) : '-' ∉ z.body.toList := by
    intro hmem
    rcases mem_body hmem with hdigit | hletter
    · cases hdigit
    · exact absurd hletter (by decide)
  obtain ⟨hnegative, hbody⟩ : x.negative = y.negative ∧ x.body = y.body := by
    rw [toText_eq hx, toText_eq hy] at h
    cases hxs : x.negative <;> cases hys : y.negative <;>
      simp only [hxs, hys, Bool.false_eq_true, if_false, if_true] at h
    · exact ⟨rfl, h⟩
    · exact absurd (by simp [h]) (hsign x)
    · exact absurd (by simp [← h]) (hsign y)
    · exact ⟨rfl, (String.append_right_inj "-").1 h⟩
  have hmagnitude := magnitude_eq_of_body hf hx hy hbody
  obtain ⟨sx, mx⟩ := x
  obtain ⟨sy, my⟩ := y
  obtain rfl : sx = sy := hnegative
  obtain rfl : mx = my := hmagnitude
  rfl

end Binary

/-! ## The two formats -/

/-- The format of 32 bits is proportionate. -/
theorem Format.isProportionate_single : Format.single.IsProportionate :=
  ⟨by decide, by decide⟩

theorem Format.isProportionate_double : Format.double.IsProportionate :=
  ⟨by decide, by decide⟩

end Weir
