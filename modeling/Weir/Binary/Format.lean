/-!
# Binary floating-point numbers

`Format` fixes the widths of the exponent and the fraction; `Binary f` is a number of that format,
kept as a sign and a magnitude. The magnitude is the exponent field followed by the fraction field,
so larger magnitudes denote larger numbers, infinity follows the largest finite number, and the
patterns after infinity are not numbers.

* `Binary.toRat` is the exact value of a finite number.
* `Binary.neg_neg` and `Binary.toRat_neg`: negation flips the sign and nothing else.
-/

namespace Weir

/-- Widths of the exponent and fraction fields of a binary interchange format. -/
structure Format where
  exponentBits : Nat
  fractionBits : Nat
  deriving DecidableEq, Repr

namespace Format

/-- The 32-bit format. -/
def single : Format := ⟨8, 23⟩

/-- The 64-bit format. -/
def double : Format := ⟨11, 52⟩

variable (f : Format)

/-- Width of a magnitude: everything but the sign. -/
abbrev magnitudeBits : Nat := f.exponentBits + f.fractionBits

/-- The exponent field of `1`. -/
def bias : Nat := 1 <<< (f.exponentBits - 1) - 1

/-- Exponent of the smallest positive number, which is one unit of the subnormal numbers. -/
def leastExponent : Int := 1 - ((f.bias + f.fractionBits : Nat) : Int)

/-- Magnitude of infinity: an exponent field of ones and an empty fraction. -/
def infinity : Nat := (1 <<< f.exponentBits - 1) <<< f.fractionBits

end Format

/-- A number of format `f`, by sign and magnitude. -/
structure Binary (f : Format) where
  negative : Bool
  magnitude : BitVec f.magnitudeBits
  deriving DecidableEq

/-- A 32-bit floating-point number. -/
abbrev Single : Type := Binary .single

/-- A 64-bit floating-point number. -/
abbrev Double : Type := Binary .double

namespace Binary

variable {f : Format}

/-- The number with the given sign and magnitude pattern. -/
def ofMagnitude (negative : Bool) (magnitude : Nat) : Binary f :=
  ⟨negative, BitVec.ofNat _ magnitude⟩

/-- Zero of either sign. -/
def zero (negative : Bool) : Binary f := ofMagnitude negative 0

/-- Infinity of either sign. -/
def infinity (negative : Bool) : Binary f := ofMagnitude negative f.infinity

/-- The number that stands for the result of an operation that has none. -/
def nan : Binary f := ofMagnitude false (f.infinity + 1 <<< (f.fractionBits - 1))

instance : Inhabited (Binary f) := ⟨zero false⟩

/-- Whether `x` is not a number. -/
def isNaN (x : Binary f) : Bool := f.infinity < x.magnitude.toNat

/-- Whether `x` is one of the two infinities. -/
def isInfinite (x : Binary f) : Bool := x.magnitude.toNat == f.infinity

/-- Whether `x` is a number, and neither of the two infinities. -/
def isFinite (x : Binary f) : Bool := x.magnitude.toNat < f.infinity

/-- Whether `x` is one of the two zeros. -/
def isZero (x : Binary f) : Bool := x.magnitude.toNat == 0

/-- The exponent field. -/
def exponentField (x : Binary f) : Nat := x.magnitude.toNat >>> f.fractionBits

/-- The fraction field. -/
def fraction (x : Binary f) : Nat := x.magnitude.toNat % 1 <<< f.fractionBits

/-- The integer significand: normal numbers have a hidden leading one. -/
def significand (x : Binary f) : Nat :=
  if x.exponentField = 0 then x.fraction else x.fraction + 1 <<< f.fractionBits

/-- The power of two that one unit of the significand stands for. -/
def exponent (x : Binary f) : Int := f.leastExponent + ((x.exponentField - 1 : Nat) : Int)

/-- The exact absolute value of a finite number. -/
def absRat (x : Binary f) : Rat := (x.significand : Rat) * (2 : Rat) ^ x.exponent

/-- The exact value of a finite number. -/
def toRat (x : Binary f) : Rat := if x.negative then -x.absRat else x.absRat

/-- The number with the opposite sign. -/
def neg (x : Binary f) : Binary f := { x with negative := !x.negative }

/-! ## Laws -/

@[simp] theorem negative_neg (x : Binary f) : x.neg.negative = !x.negative := rfl

@[simp] theorem magnitude_neg (x : Binary f) : x.neg.magnitude = x.magnitude := rfl

@[simp] theorem absRat_neg (x : Binary f) : x.neg.absRat = x.absRat := rfl

@[simp] theorem isNaN_neg (x : Binary f) : x.neg.isNaN = x.isNaN := rfl

@[simp] theorem neg_neg (x : Binary f) : x.neg.neg = x := by
  cases x; simp [neg]

/-- Negating a number negates its value. -/
theorem toRat_neg (x : Binary f) : x.neg.toRat = -x.toRat := by
  cases h : x.negative
  · simp [toRat, h]
  · simp only [toRat, negative_neg, absRat_neg, h, Bool.not_true, Bool.false_eq_true, if_false,
      if_true, Rat.neg_neg]

end Binary

end Weir
