import Weir.Json.Basic
import Weir.Decimal.Basic

/-!
# Numbers in JSON text

A number without point and exponent that fits 64 bits is an integer. Any other number becomes a
double by a scheme that is quick rather than exact: the leading digits that fit 64 bits are rounded
to a double, which is then multiplied or divided by one power of ten. Exponents below what a double
can hold are reached in blocks of `10 ^ 308`.
-/

namespace Weir.Json

/-- The double nearest to `10 ^ n`. -/
def powerOfTen (n : Nat) : Double := Binary.ofRat ((10 : Rat) ^ (n : Int))

/-- Divides by `10 ^ n` in blocks, stopping once nothing is left. -/
def divideByPower (x : Double) (n : Nat) : Double :=
  if n ≤ 308 then x.div (powerOfTen n)
  else if x.isZero then x
  else divideByPower (x.div (powerOfTen 308)) (n - 308)
termination_by n

/-- Multiplies by `10 ^ n`; a result without a finite double is refused. -/
def multiplyByPower? (x : Double) (n : Nat) : Option Double :=
  if n ≤ 308 then
    let y := x.mul (powerOfTen n)
    if y.isInfinite then none else some y
  else if x.isZero then some x else none

/-- The double for `significand * 10 ^ exponent`. -/
def scale? (significand : Nat) (exponent : Int) : Option Double :=
  let x : Double := Binary.ofInt significand
  if exponent < 0 then some (divideByPower x (-exponent).toNat)
  else multiplyByPower? x exponent.toNat

/-- Appends digits to a significand while it fits 64 bits; returns the digits that did not. -/
def absorb (n : Nat) : List Char → Nat × List Char
  | [] => (n, [])
  | c :: cs =>
    let m := 10 * n + Decimal.ofDigits [c]
    if m < 1 <<< 64 then absorb m cs else (n, c :: cs)

/-- Largest size of a written exponent; past it only the sign of the exponent counts. -/
def greatestExponent : Int := 2147483647

/-- The double for a number with the given digits before and after the point. -/
def double? (whole fraction : List Char) (exponent : Int) : Option Double :=
  let (leading, dropped) := absorb 0 whole
  let (significand, rest) := absorb leading fraction
  let shift : Int := (dropped.length : Int) - ((fraction.length - rest.length : Nat) : Int)
  if greatestExponent < exponent then
    if significand = 0 then some (Binary.zero false) else none
  else if exponent < -greatestExponent then some (Binary.zero false)
  else scale? significand (shift + exponent)

/-- The integer `n`, if it fits 64 bits with or without a sign. Minus zero is no integer. -/
def integer? (negative : Bool) (n : Nat) : Option Int :=
  if negative then
    if 0 < n ∧ n ≤ 1 <<< 63 then some (-(n : Int)) else none
  else if n < 1 <<< 64 then some n else none

/-- The value of a number's text, or `unreadable` when no double is close to it. `none` means that
the text is not a number. -/
def ofNumber? (cs : List Char) : Option Json :=
  let (negative, body) := match cs with
    | '-' :: rest => (true, rest)
    | _ => (false, cs)
  let whole := body.takeWhile Char.isDigit
  let tail := body.dropWhile Char.isDigit
  if whole = [] ∨ (1 < whole.length ∧ whole.head? = some '0') then none
  else
    let signed (x : Option Double) : Json := match x with
      | some x => .float (if negative then x.neg else x)
      | none => .unreadable
    match tail with
    | [] =>
      match integer? negative (Decimal.ofDigits whole) with
      | some n => some (.int n)
      | none => some (signed (double? whole [] 0))
    | '.' :: more =>
      let fraction := more.takeWhile Char.isDigit
      if fraction = [] then none
      else (Decimal.exponentOfChars? (more.dropWhile Char.isDigit)).map
        fun e => signed (double? whole fraction e)
    | _ => (Decimal.exponentOfChars? tail).map fun e => signed (double? whole [] e)

end Weir.Json
