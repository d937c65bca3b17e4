import Weir.Binary.Rounding

/-!
# Arithmetic and comparison of binary floating-point numbers

Each operation first settles the operands that are not finite, then rounds the exact result.
Comparison goes by `Binary.rank`, an integer that orders finite and infinite numbers alike and is
the same for both zeros.

* `Binary.eq_comm` and `Binary.lt_irrefl`: equality is symmetric and no number precedes itself.
-/

namespace Weir.Binary

variable {f : Format}

/-- Sum. Opposite infinities have none; an exact zero is negative only when both operands are. -/
def add (x y : Binary f) : Binary f :=
  if x.isNaN || y.isNaN then nan
  else if x.isInfinite then
    if y.isInfinite && x.negative != y.negative then nan else x
  else if y.isInfinite then y
  else
    let sum := x.toRat + y.toRat
    if sum = 0 then zero (x.negative && y.negative) else ofRat sum

/-- Difference: the sum with the negated right operand. -/
def sub (x y : Binary f) : Binary f := x.add y.neg

/-- Product. An infinity times a zero has none. -/
def mul (x y : Binary f) : Binary f :=
  let negative := x.negative != y.negative
  if x.isNaN || y.isNaN then nan
  else if x.isInfinite || y.isInfinite then
    if x.isZero || y.isZero then nan else infinity negative
  else ofAbsRat negative (x.absRat * y.absRat)

/-- Quotient. Two zeros or two infinities have none; any other division by zero is infinite. -/
def div (x y : Binary f) : Binary f :=
  let negative := x.negative != y.negative
  if x.isNaN || y.isNaN then nan
  else if x.isInfinite then if y.isInfinite then nan else infinity negative
  else if y.isInfinite then zero negative
  else if y.isZero then if x.isZero then nan else infinity negative
  else ofAbsRat negative (x.absRat / y.absRat)

/-! ## Comparison -/

/-- Position of a number on the extended line; both zeros have the same. -/
def rank (x : Binary f) : Int :=
  if x.negative then -(x.magnitude.toNat : Int) else x.magnitude.toNat

/-- Whether both operands are numbers. -/
def ordered (x y : Binary f) : Bool := !x.isNaN && !y.isNaN

/-- Numeric equality. -/
def eq (x y : Binary f) : Bool := ordered x y && x.rank == y.rank

/-- Numeric "less than". -/
def lt (x y : Binary f) : Bool := ordered x y && x.rank < y.rank

/-- Numeric "at most". -/
def le (x y : Binary f) : Bool := ordered x y && x.rank ≤ y.rank

theorem ordered_comm (x y : Binary f) : ordered x y = ordered y x := by
  simp [ordered, Bool.and_comm]

theorem eq_comm (x y : Binary f) : eq x y = eq y x := by
  simp [eq, ordered_comm x y, Bool.beq_eq_decide_eq, Eq.comm]

@[simp] theorem lt_irrefl (x : Binary f) : lt x x = false := by
  simp [lt]

end Weir.Binary
