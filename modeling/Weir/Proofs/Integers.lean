import Mathlib.Data.Int.Bitwise
import Mathlib.Data.Int.ModEq
import Mathlib.Tactic.Positivity
import Mathlib.Tactic.Zify
import Weir.Proofs.ExpressionTyping
import Weir.Proofs.ValueRanges

/-!
# Numbers of the integer types

The values of an integer type, and of `bool`, stand for integers. A number is kept as its two's
complement pattern in the slot of its type, so that numbers which agree in the bits of the slot have
one pattern; `Ty.Holds` says which number of its type a value stands for. `Ty.wrap` brings a number
into the range of a type and keeps its last bits.

## Key results

- `Ty.eq_wrap_iff`: wrapping yields the only number in range with the same last bits
- `Ty.lossless_iff`: implicit conversions are those to types that have all numbers of the source
- `Ty.exists_holds`, `Ty.Holds.contains`, `Ty.Holds.unique`: the values in the slot and the range of
  a type are those that stand for a number, each for one
-/

namespace Weir

/-! ## Patterns of integers -/

section

variable {w v k : Nat} {a b n : Int}

/-- Numbers have the same pattern if they agree in the bits of the pattern. -/
theorem ofInt_eq_ofInt_iff : BitVec.ofInt w a = BitVec.ofInt w b ↔ a ≡ b [ZMOD 2 ^ w] := by
  rw [← BitVec.toInt_inj, BitVec.toInt_ofInt, BitVec.toInt_ofInt, Int.ModEq]
  constructor
  · intro h
    have h' : a % ((2 ^ w : Nat) : Int) = b % ((2 ^ w : Nat) : Int) := by
      rw [← Int.bmod_emod, h, Int.bmod_emod]
    exact_mod_cast h'
  · intro h
    have h' : a % ((2 ^ w : Nat) : Int) = b % ((2 ^ w : Nat) : Int) := by exact_mod_cast h
    rw [← Int.emod_bmod, h', Int.emod_bmod]

/-- The pattern of a difference is the difference of the patterns. -/
theorem ofInt_sub : BitVec.ofInt w (a - b) = BitVec.ofInt w a - BitVec.ofInt w b := by
  rw [Int.sub_eq_add_neg, BitVec.ofInt_add, BitVec.ofInt_neg, BitVec.sub_eq_add_neg]

/-- A pattern has the bits of the number. -/
private theorem getLsbD_ofInt :
    (BitVec.ofInt w n).getLsbD k = (decide (k < w) && n.testBit k) := by
  cases n with
  | ofNat n => simp [Int.testBit, BitVec.ofInt_natCast, BitVec.getLsbD_ofNat]
  | negSucc n =>
    rw [BitVec.ofInt_negSucc_eq_not_ofNat, BitVec.getLsbD_not, BitVec.getLsbD_ofNat, Int.testBit]
    cases decide (k < w) <;> simp

/-- A pattern is that of the natural number it stands for. -/
theorem ofInt_toNat (x : BitVec w) : BitVec.ofInt w x.toNat = x := by
  rw [BitVec.ofInt_natCast, BitVec.ofNat_toNat, BitVec.setWidth_eq]

/-- Bitwise operators work on the two's complements of integers. -/
theorem ofInt_land : BitVec.ofInt w (a.land b) = BitVec.ofInt w a &&& BitVec.ofInt w b := by
  refine BitVec.eq_of_getLsbD_eq fun k hk => ?_
  simp only [getLsbD_ofInt, BitVec.getLsbD_and, Int.testBit_land, hk, decide_true, Bool.true_and]

/-- The pattern of a bitwise or is that of the patterns. -/
theorem ofInt_lor : BitVec.ofInt w (a.lor b) = BitVec.ofInt w a ||| BitVec.ofInt w b := by
  refine BitVec.eq_of_getLsbD_eq fun k hk => ?_
  simp only [getLsbD_ofInt, BitVec.getLsbD_or, Int.testBit_lor, hk, decide_true, Bool.true_and]

/-- The pattern of a bitwise exclusive or is that of the patterns. -/
theorem ofInt_xor : BitVec.ofInt w (a.xor b) = BitVec.ofInt w a ^^^ BitVec.ofInt w b := by
  refine BitVec.eq_of_getLsbD_eq fun k hk => ?_
  simp only [getLsbD_ofInt, BitVec.getLsbD_xor, Int.testBit_lxor, hk, decide_true, Bool.true_and]

/-- A pattern read without a sign gives back a number that has room in it. -/
private theorem toNat_ofInt_of_lt (h₀ : 0 ≤ n) (h : n < 2 ^ w) :
    ((BitVec.ofInt w n).toNat : Int) = n := by
  rw [BitVec.toNat_ofInt, Int.toNat_of_nonneg (Int.emod_nonneg _ (by positivity))]
  exact Int.emod_eq_of_lt h₀ (by exact_mod_cast h)

/-! ### Wider and narrower patterns -/

/-- A signed number that fits a pattern is kept when it is extended. -/
theorem signExtend_ofInt (hw : 0 < w) (hwv : w ≤ v) (hlo : -2 ^ (w - 1) ≤ n)
    (hhi : n < 2 ^ (w - 1)) : (BitVec.ofInt w n).signExtend v = BitVec.ofInt v n := by
  have hpow : (2 : Int) ^ (w - 1) ≤ 2 ^ (v - 1) := pow_le_pow_right₀ (by decide) (by omega)
  apply BitVec.eq_of_toInt_eq
  rw [BitVec.toInt_signExtend_of_le hwv, BitVec.toInt_ofInt_eq_self hw hlo hhi,
    BitVec.toInt_ofInt_eq_self (by omega) (by omega) (by omega)]

/-- An unsigned number that fits a pattern is kept in a wider one. -/
theorem setWidth_ofInt_of_le (hwv : w ≤ v) (h₀ : 0 ≤ n) (h : n < 2 ^ w) :
    (BitVec.ofInt w n).setWidth v = BitVec.ofInt v n := by
  have hpow : (2 : Int) ^ w ≤ 2 ^ v := pow_le_pow_right₀ (by decide) hwv
  apply BitVec.eq_of_toNat_eq
  zify
  rw [BitVec.toNat_setWidth_of_le hwv, toNat_ofInt_of_lt h₀ h, toNat_ofInt_of_lt h₀ (by omega)]

/-- Cutting a pattern off keeps its low bits. -/
theorem setWidth_ofInt_of_ge (hvw : v ≤ w) :
    (BitVec.ofInt w n).setWidth v = BitVec.ofInt v n := by
  refine BitVec.eq_of_getLsbD_eq fun k hk => ?_
  have hkw : k < w := by omega
  simp only [BitVec.getLsbD_setWidth, getLsbD_ofInt, hk, hkw, decide_true, Bool.true_and]

/-- Masking keeps the low bits of a number. -/
theorem ofInt_and_mask (hk : k ≤ v) :
    BitVec.ofInt v n &&& BitVec.ofInt v (2 ^ k - 1) = BitVec.ofInt v (n % 2 ^ k) := by
  have hpow : (2 : Int) ^ k ≤ 2 ^ v := pow_le_pow_right₀ (by decide) hk
  have hpos : (0 : Int) < 2 ^ k := by positivity
  -- As a natural number the mask is one less than a power of two, and masking is a remainder.
  have hmask : (BitVec.ofInt v (2 ^ k - 1)).toNat = 2 ^ k - 1 := by
    zify [Nat.one_le_two_pow]
    exact toNat_ofInt_of_lt (by omega) (by omega)
  apply BitVec.eq_of_toNat_eq
  rw [BitVec.toNat_and, hmask, Nat.and_two_pow_sub_one_eq_mod]
  zify
  have hlt : n % 2 ^ k < 2 ^ k := Int.emod_lt_of_pos _ hpos
  rw [toNat_ofInt_of_lt (Int.emod_nonneg _ hpos.ne') (by omega), BitVec.toNat_ofInt,
    Int.toNat_of_nonneg (Int.emod_nonneg _ (by positivity))]
  push_cast
  exact Int.emod_emod_of_dvd _ (pow_dvd_pow _ hk)

/-- Extending the low bits of a number with their sign. -/
theorem signExtend_setWidth_ofInt (hpos : 0 < k) (hk : k ≤ v) :
    ((BitVec.ofInt v n).setWidth k).signExtend v = BitVec.ofInt v (n.bmod (2 ^ k)) := by
  have hsame : BitVec.ofInt k n = BitVec.ofInt k (n.bmod (2 ^ k)) := by
    rw [ofInt_eq_ofInt_iff, Int.ModEq]
    exact_mod_cast (Int.bmod_emod (x := n) (m := 2 ^ k)).symm
  have htwo : (2 : Int) ^ k = 2 * 2 ^ (k - 1) := by
    rw [← pow_succ', Nat.sub_add_cancel hpos]
  have hlo := Int.le_bmod (x := n) (m := 2 ^ k) (by positivity)
  have hhi := Int.bmod_lt (x := n) (m := 2 ^ k) (by positivity)
  push_cast at hlo hhi
  rw [setWidth_ofInt_of_ge hk, hsame]
  exact signExtend_ofInt hpos hk (by omega) (by omega)

end

/-- A value of a slot determines its pattern. -/
theorem Code.Value.ofInt_inj {s : Code.IntSlot} {a b : BitVec s.bits} :
    Code.Value.ofInt s a = .ofInt s b ↔ a = b := by
  constructor
  · intro h
    cases s <;> (cases h; rfl)
  · rintro rfl
    rfl

end Weir

namespace Weir.Source.Ty

open Weir.Code (IntSlot Value)

/-- The integer types and `bool`, whose values are the numbers zero and one. -/
def isIntegral (t : Ty) : Bool := t = bool || t.isInteger

variable (w : PointerWidth)

/-- The least number of an integral type. -/
def least (t : Ty) : Int := if t.isSigned then -2 ^ (t.bits w - 1) else 0

/-- The greatest number of an integral type. -/
def greatest (t : Ty) : Int := if t.isSigned then 2 ^ (t.bits w - 1) - 1 else 2 ^ t.bits w - 1

/-- A number is one of an integral type. -/
def InRange (t : Ty) (n : Int) : Prop := t.least w ≤ n ∧ n ≤ t.greatest w

/-- Being in range is a matter of two comparisons. -/
instance (t : Ty) (n : Int) : Decidable (t.InRange w n) := inferInstanceAs (Decidable (_ ∧ _))

/-- The number of an integral type that agrees with another one in its last bits. -/
def wrap (t : Ty) (n : Int) : Int :=
  if t.isSigned then n.bmod (2 ^ t.bits w) else n % 2 ^ t.bits w

/-- A number as a pattern of the slot of an integral type. -/
def encode (t : Ty) (n : Int) : Value := .ofInt (t.intSlot w) (BitVec.ofInt _ n)

/-- A value stands for a number of an integral type. -/
structure Holds (t : Ty) (v : Value) (n : Int) : Prop where
  inRange : t.InRange w n
  eq_encode : v = t.encode w n

variable {w} {s t : Ty} {n m : Int} {v : Value}

/-! ## Types of fixed width -/

@[simp] theorem isIntegral_resolve (t : Ty) : (t.resolve w).isIntegral = t.isIntegral := by
  cases w <;> cases t <;> rfl

@[simp] theorem isSigned_resolve (t : Ty) : (t.resolve w).isSigned = t.isSigned := by
  cases w <;> cases t <;> rfl

@[simp] theorem intSlot_resolve (t : Ty) : (t.resolve w).intSlot w = t.intSlot w := by
  simp [intSlot]

@[simp] theorem inRange_resolve : (t.resolve w).InRange w n ↔ t.InRange w n := by
  simp [InRange, least, greatest]

@[simp] theorem wrap_resolve : (t.resolve w).wrap w n = t.wrap w n := by
  simp [wrap]

/-- A type is encoded like the one that it stands for. -/
@[simp] theorem encode_resolve : (t.resolve w).encode w n = t.encode w n := by
  rw [encode, intSlot_resolve, encode]

/-! ## Ranges -/

/-- The range of a signed type has two halves. -/
theorem inRange_of_isSigned (hs : t.isSigned) :
    t.InRange w n ↔ -2 ^ (t.bits w - 1) ≤ n ∧ n < 2 ^ (t.bits w - 1) := by
  simp only [InRange, least, greatest, hs, if_true]
  omega

/-- The range of an unsigned type begins at zero. -/
theorem inRange_of_not_isSigned (hs : t.isSigned = false) :
    t.InRange w n ↔ 0 ≤ n ∧ n < 2 ^ t.bits w := by
  simp only [InRange, least, greatest, hs, Bool.false_eq_true, if_false]
  omega

/-- A number is a value. -/
theorem isVoid_of_isIntegral (h : t.isIntegral) : t.isVoid = false := by
  cases t <;> first | rfl | exact absurd h (by decide)

/-- An integral type is not a float. -/
theorem isFloat_of_isIntegral (h : t.isIntegral) : t.isFloat = false := by
  cases t <;> first | rfl | exact absurd h (by decide)

/-- An integral type has at least one bit. -/
private theorem bits_pos (h : t.isIntegral) : 0 < t.bits w := by
  cases t <;> first | exact absurd h (by decide) | (cases w <;> decide)

/-- Every integral type has zero. -/
theorem inRange_zero (h : t.isIntegral) : t.InRange w 0 := by
  cases t <;> first | exact absurd h (by decide) | (cases w <;> decide)

/-- The slot of an integral type has room for its bits. -/
theorem bits_le_intSlot (h : t.isIntegral) : t.bits w ≤ (t.intSlot w).bits := by
  cases t <;> first | exact absurd h (by decide) | (cases w <;> decide)

/-- A number is left as it is if it is one of the type already. -/
theorem wrap_of_inRange (h : t.isIntegral) (hn : t.InRange w n) : t.wrap w n = n := by
  unfold wrap
  cases hs : t.isSigned with
  | true =>
    obtain ⟨hlo, hhi⟩ := (inRange_of_isSigned hs).1 hn
    have hpow : (2 : Int) ^ t.bits w = 2 * 2 ^ (t.bits w - 1) := by
      rw [← pow_succ', Nat.sub_add_cancel (bits_pos h)]
    exact Int.bmod_eq_of_le_mul_two (by push_cast; omega) (by push_cast; omega)
  | false =>
    obtain ⟨hlo, hhi⟩ := (inRange_of_not_isSigned hs).1 hn
    exact Int.emod_eq_of_lt hlo hhi

/-- A number that is wrapped is in range. -/
theorem inRange_wrap (h : t.isIntegral) : t.InRange w (t.wrap w n) := by
  unfold wrap
  -- A signed type takes the remainder that is nearest to zero, an unsigned one that which is not
  -- negative.
  cases hs : t.isSigned with
  | true =>
    have hpow : (2 : Int) ^ t.bits w = 2 * 2 ^ (t.bits w - 1) := by
      rw [← pow_succ', Nat.sub_add_cancel (bits_pos h)]
    have hpos : 0 < 2 ^ t.bits w := by positivity
    have hlo := Int.le_bmod (x := n) hpos
    have hhi := Int.bmod_lt (x := n) hpos
    push_cast at hlo hhi
    rw [inRange_of_isSigned hs, if_pos rfl]
    omega
  | false =>
    rw [inRange_of_not_isSigned hs, if_neg (by decide)]
    exact ⟨Int.emod_nonneg _ (by positivity), Int.emod_lt_of_pos _ (by positivity)⟩

/-- Wrapping keeps a number up to multiples of the width. -/
private theorem wrap_modEq : t.wrap w n ≡ n [ZMOD 2 ^ t.bits w] := by
  unfold wrap Int.ModEq
  split
  · have h := Int.bmod_emod (x := n) (m := 2 ^ t.bits w)
    exact_mod_cast h
  · exact Int.emod_emod_of_dvd _ (dvd_refl _)

/-- Numbers that differ by a multiple of the width are wrapped alike. -/
theorem wrap_congr (h : n ≡ m [ZMOD 2 ^ t.bits w]) : t.wrap w n = t.wrap w m := by
  unfold wrap
  split
  · have h' : n % ((2 ^ t.bits w : Nat) : Int) = m % ((2 ^ t.bits w : Nat) : Int) := by
      exact_mod_cast h
    rw [← Int.emod_bmod, h', Int.emod_bmod]
  · exact h

/-- Wrapping chooses the only number of a type that agrees with another one in the last bits. -/
theorem eq_wrap_iff (h : t.isIntegral) :
    m = t.wrap w n ↔ t.InRange w m ∧ m ≡ n [ZMOD 2 ^ t.bits w] := by
  constructor
  · rintro rfl
    exact ⟨inRange_wrap h, wrap_modEq⟩
  · rintro ⟨hm, hcongr⟩
    rw [← wrap_congr hcongr, wrap_of_inRange h hm]

/-- The ranges of two types lie within each other as their ends do. -/
theorem inRange_mono_iff (hs : s.isIntegral) :
    (∀ n, s.InRange w n → t.InRange w n) ↔
      t.least w ≤ s.least w ∧ s.greatest w ≤ t.greatest w := by
  have hle : s.least w ≤ s.greatest w := by
    obtain ⟨hlo, hhi⟩ := inRange_wrap (w := w) (n := 0) hs
    exact hlo.trans hhi
  constructor
  · intro h
    exact ⟨(h _ ⟨le_refl _, hle⟩).1, (h _ ⟨hle, le_refl _⟩).2⟩
  · rintro ⟨hlo, hhi⟩ n ⟨hn, hn'⟩
    exact ⟨hlo.trans hn, hn'.trans hhi⟩

/-- An implicit conversion is allowed where the numbers of the source are numbers of the target. -/
theorem lossless_iff (hs : s.isIntegral) (ht : t.isIntegral) :
    Lowering.lossless w s t ↔ ∀ n, s.InRange w n → t.InRange w n := by
  rw [inRange_mono_iff hs]
  cases s <;> first
    | exact absurd hs (by decide)
    | (cases t <;> first | exact absurd ht (by decide) | (cases w <;> decide))

/-! ## Patterns -/

/-- A number is encoded in the slot of its type. -/
@[simp] theorem slot_encode (h : t.isIntegral) : (t.encode w n).slot = t.slot w := by
  cases t <;> first | exact absurd h (by decide) | (cases w <;> rfl)

/-- Patterns are equal if the numbers agree modulo the width of the slot. -/
theorem encode_eq_encode_iff :
    t.encode w n = t.encode w m ↔ n ≡ m [ZMOD 2 ^ (t.intSlot w).bits] := by
  rw [encode, encode, Value.ofInt_inj, ofInt_eq_ofInt_iff]

/-- Different numbers of a type are encoded differently. -/
private theorem encode_injOn (h : t.isIntegral) (hn : t.InRange w n) (hm : t.InRange w m)
    (heq : t.encode w n = t.encode w m) : n = m := by
  have hslot := encode_eq_encode_iff.1 heq
  have hbits : (2 : Int) ^ t.bits w ∣ 2 ^ (t.intSlot w).bits := pow_dvd_pow _ (bits_le_intSlot h)
  -- Numbers in range are wrapped to themselves, and the slot is not narrower than the type.
  rw [← wrap_of_inRange h hn, ← wrap_of_inRange h hm]
  exact wrap_congr (hslot.of_dvd hbits)

/-- Nothing has to be done to the pattern of a number for a type that fills its slot. -/
theorem encode_wrap (h : t.bits w = (t.intSlot w).bits) :
    t.encode w (t.wrap w n) = t.encode w n := by
  rw [encode_eq_encode_iff, ← h]
  exact wrap_modEq

/-- A type has bounds of its own if it is narrower than a word, and they are the ends of its range.
    -/
private theorem bounds?_of_isIntegral (h : t.isIntegral) :
    t.bounds? = if t.bits w < 32 then some (t.least w, t.greatest w) else none := by
  cases t <;> first | exact absurd h (by decide) | (cases w <;> decide)

/-- A type that is not small fills its slot. -/
theorem bits_eq_intSlot (h : t.isIntegral) (hbits : ¬ t.bits w < 32) :
    t.bits w = (t.intSlot w).bits := by
  cases t <;> first
    | exact absurd h (by decide)
    | (cases w <;> first | rfl | exact absurd (by decide) hbits)

/-- A type narrower than a word lies in the slot of a word. -/
private theorem intSlot_of_bits_lt (h : t.bits w < 32) : t.intSlot w = .i32 := by
  cases t <;> first | rfl | (cases w <;> exact absurd h (by decide))

/-- A small type has its numbers in a word, read with a sign. -/
theorem InRange.of_bits_lt (hbits : t.bits w < 32) (hn : t.InRange w n) :
    -2 ^ 31 ≤ n ∧ n < 2 ^ 31 := by
  have hpow : (2 : Int) ^ t.bits w ≤ 2 ^ 31 := pow_le_pow_right₀ (by decide) (by omega)
  cases hs : t.isSigned with
  | true =>
    have hpow' : (2 : Int) ^ (t.bits w - 1) ≤ 2 ^ 31 := pow_le_pow_right₀ (by decide) (by omega)
    obtain ⟨hlo, hhi⟩ := (inRange_of_isSigned hs).1 hn
    omega
  | false =>
    obtain ⟨hlo, hhi⟩ := (inRange_of_not_isSigned hs).1 hn
    omega

/-- The numbers of a signed type in its slot, read with a sign. -/
theorem InRange.of_isSigned (h : t.isIntegral) (hs : t.isSigned) (hn : t.InRange w n) :
    -2 ^ ((t.intSlot w).bits - 1) ≤ n ∧ n < 2 ^ ((t.intSlot w).bits - 1) := by
  have hbits := bits_le_intSlot (w := w) h
  have hpow : (2 : Int) ^ (t.bits w - 1) ≤ 2 ^ ((t.intSlot w).bits - 1) :=
    pow_le_pow_right₀ (by decide) (by omega)
  obtain ⟨hlo, hhi⟩ := (inRange_of_isSigned hs).1 hn
  omega

/-- The numbers of an unsigned type in its slot, read without a sign. -/
theorem InRange.of_not_isSigned (h : t.isIntegral) (hs : t.isSigned = false)
    (hn : t.InRange w n) : 0 ≤ n ∧ n < 2 ^ (t.intSlot w).bits := by
  have hpow : (2 : Int) ^ t.bits w ≤ 2 ^ (t.intSlot w).bits :=
    pow_le_pow_right₀ (by decide) (bits_le_intSlot h)
  obtain ⟨hlo, hhi⟩ := (inRange_of_not_isSigned hs).1 hn
  omega

/-- The number is read from its pattern, with a sign if the type has one. -/
theorem InRange.toInt_ofInt (h : t.isIntegral) (hs : t.isSigned) (hn : t.InRange w n) :
    (BitVec.ofInt (t.intSlot w).bits n).toInt = n := by
  have hroom := hn.of_isSigned h hs
  exact BitVec.toInt_ofInt_eq_self (by cases t.intSlot w <;> decide) hroom.1 hroom.2

/-- The pattern of an unsigned number is read as the number. -/
theorem InRange.toNat_ofInt (h : t.isIntegral) (hs : t.isSigned = false) (hn : t.InRange w n) :
    ((BitVec.ofInt (t.intSlot w).bits n).toNat : Int) = n := by
  have hroom := hn.of_not_isSigned h hs
  exact toNat_ofInt_of_lt hroom.1 hroom.2

/-- Patterns are equal if the numbers are. -/
theorem InRange.ofInt_inj (h : t.isIntegral) (hn : t.InRange w n) (hm : t.InRange w m) :
    BitVec.ofInt (t.intSlot w).bits n = BitVec.ofInt _ m ↔ n = m :=
  ⟨fun heq => encode_injOn h hn hm (Value.ofInt_inj.2 heq), fun heq => heq ▸ rfl⟩

/-- The numbers of a type are in its slot, and in its range where it has one of its own. -/
theorem Holds.contains (h : t.isIntegral) (hv : t.Holds w v n) : t.Contains v := by
  intro lo hi hbounds
  -- A type narrower than a word has bounds, and its pattern is that of the number. The others have
  -- none.
  by_cases hbits : t.bits w < 32
  · rw [bounds?_of_isIntegral (w := w) h, if_pos hbits, Option.some.injEq,
      Prod.mk.injEq] at hbounds
    obtain ⟨rfl, rfl⟩ := hbounds
    obtain ⟨hlo, hhi⟩ := hv.inRange.of_bits_lt hbits
    have htoInt : (BitVec.ofInt 32 n).toInt = n := BitVec.toInt_ofInt_eq_self (by decide) hlo hhi
    refine ⟨BitVec.ofInt 32 n, ?_, ?_⟩
    · rw [hv.eq_encode, encode, intSlot_of_bits_lt hbits]
      rfl
    · rw [htoInt]
      exact hv.inRange
  · rw [bounds?_of_isIntegral (w := w) h, if_neg hbits] at hbounds
    cases hbounds

/-- A value of the slot of a type that is in the range of the type is one of its numbers. -/
theorem exists_holds (h : t.isIntegral) (hslot : v.slot = t.slot w) (hv : t.Contains v) :
    ∃ n, t.Holds w v n := by
  by_cases hbits : t.bits w < 32
  · have hbounds := bounds?_of_isIntegral (w := w) h
    rw [if_pos hbits] at hbounds
    obtain ⟨b, rfl, hrange⟩ := hv _ _ hbounds
    refine ⟨b.toInt, hrange, ?_⟩
    rw [encode, intSlot_of_bits_lt hbits]
    exact congrArg Value.i32 BitVec.ofInt_toInt.symm
  · -- Nothing is known of the pattern, and any pattern is the one of some number.
    obtain ⟨b, rfl⟩ : ∃ b, v = .ofInt (t.intSlot w) b := by
      rw [slot_of_not_isFloat (isVoid_of_isIntegral h) (isFloat_of_isIntegral h)] at hslot
      cases v <;> cases hi : t.intSlot w <;> rw [hi] at hslot <;> first
        | exact ⟨_, rfl⟩
        | cases hslot
    refine ⟨t.wrap w b.toInt, inRange_wrap h, ?_⟩
    rw [encode_wrap (bits_eq_intSlot h hbits), encode, BitVec.ofInt_toInt]

/-- A value that holds a number lies in the slot of its type. -/
theorem Holds.slot (h : t.isIntegral) (hv : t.Holds w v n) : v.slot = t.slot w := by
  rw [hv.eq_encode, slot_encode h]

/-- A value stands for one number only. -/
theorem Holds.unique (h : t.isIntegral) (hn : t.Holds w v n) (hm : t.Holds w v m) : n = m :=
  encode_injOn h hn.inRange hm.inRange (hn.eq_encode.symm.trans hm.eq_encode)

end Weir.Source.Ty
