import Weir.Binary.Rounding
import Weir.Decimal.Basic

/-!
# Shortest decimals of binary numbers

`Binary.shortest` gives the decimal with the fewest digits that rounds back to a given number, and
of several such decimals the nearest to it. Decimal grids are nested, so the fewest digits belong
to the coarsest grid that has a point among the rationals which round to the number.
-/

namespace Weir

namespace Decimal

/-- Of the two multiples of `10 ^ exponent` around `q`, the nearest one that is `inside`; the upper
one at equal distance. -/
def nearest? (inside : Rat → Bool) (q : Rat) (exponent : Int) : Option Nat :=
  let step := (10 : Rat) ^ exponent
  let below := (q / step).floor.toNat
  let lower := (below : Rat) * step
  let upper := lower + step
  match inside lower, inside upper with
  | true, true => some (if q - lower < upper - q then below else below + 1)
  | true, false => some below
  | false, true => some (below + 1)
  | false, false => none

/-- Tries the grids from `10 ^ exponent` downward. -/
def coarsest (inside : Rat → Bool) (q : Rat) : Nat → Int → Decimal
  | 0, exponent => ⟨(q / (10 : Rat) ^ exponent).floor.toNat, exponent⟩
  | n + 1, exponent =>
    match nearest? inside q exponent with
    | some digits => ⟨digits, exponent⟩
    | none => coarsest inside q n (exponent - 1)

end Decimal

namespace Binary

variable {f : Format}

/-- Whether `q` rounds to the absolute value of `x`: it lies between the midpoints to the two
neighbours, and on a midpoint only when the magnitude of `x` is even. -/
def covers (x : Binary f) (q : Rat) : Bool :=
  let m := x.magnitude.toNat
  let below := (ofMagnitude (f := f) false (m - 1)).absRat
  let above := (ofMagnitude (f := f) false (m + 1)).absRat
  let least := (below + x.absRat) / 2
  let greatest := (x.absRat + above) / 2
  if m % 2 = 0 then least ≤ q && q ≤ greatest else least < q && q < greatest

/-- A power of ten that is certainly above `q`, for positive `q`: its exponent is the number of
binary digits of `q` times a little more than the logarithm of two. -/
def decadeAbove (q : Rat) : Int := (floorLog2 q + 2) * 30103 / 100000 + 1

/-- The shortest decimal that rounds to the absolute value of a finite `x` other than zero. -/
def shortest (x : Binary f) : Decimal :=
  Decimal.coarsest x.covers x.absRat (f.fractionBits + 5) (decadeAbove x.absRat)

end Binary

end Weir
