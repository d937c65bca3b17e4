import Weir.Binary.Format

/-!
# Rounding to a binary format

`Binary.ofRat` is the number of a format nearest to a rational, ties going to the even neighbour;
results past the largest finite number become infinite. Every operation with an inexact result is
the exact rational operation followed by it. `Binary.truncate` goes the other way: to an integer,
toward zero, held inside given bounds.
-/

namespace Weir

/-- The exponent of the largest power of two that is at most `q`, for positive `q`. -/
def floorLog2 (q : Rat) : Int :=
  let guess : Int := (q.num.natAbs.log2 : Int) - (q.den.log2 : Int)
  if (2 : Rat) ^ guess ≤ q then guess else guess - 1

/-- The natural number nearest to `q`, for `q` that is not negative; a half goes to the even one. -/
def roundHalfEven (q : Rat) : Nat :=
  let whole := q.num.toNat / q.den
  let rest := 2 * (q.num.toNat % q.den)
  if rest < q.den ∨ (rest = q.den ∧ whole % 2 = 0) then whole else whole + 1

namespace Binary

variable {f : Format}

/-- The number nearest to `q` in absolute value, with the given sign; `q` is not negative. -/
def ofAbsRat (negative : Bool) (q : Rat) : Binary f :=
  if q = 0 then zero negative
  else
    let unit := max (floorLog2 q - f.fractionBits) f.leastExponent
    let steps := roundHalfEven (q / (2 : Rat) ^ unit)
    ofMagnitude negative
      (min ((unit - f.leastExponent).toNat <<< f.fractionBits + steps) f.infinity)

/-- The number nearest to `q`; zero is positive. -/
def ofRat (q : Rat) : Binary f :=
  if q < 0 then ofAbsRat true (-q) else ofAbsRat false q

/-- The number nearest to the integer `n`. -/
def ofInt (n : Int) : Binary f := ofRat (n : Rat)

/-- The nearest number of another format. Signs, infinities and the absence of a number stay. -/
def convert {g : Format} (x : Binary f) : Binary g :=
  if x.isNaN then nan
  else if x.isInfinite then infinity x.negative
  else ofAbsRat x.negative x.absRat

/-- The integer part of `x` brought between `lo` and `hi`; what is not a number becomes zero. -/
def truncate (lo hi : Int) (x : Binary f) : Int :=
  if x.isNaN then 0
  else if x.isInfinite then if x.negative then lo else hi
  else
    let whole := x.absRat.floor
    max lo (min hi (if x.negative then -whole else whole))

end Binary

end Weir
