/-!
# Decimal numbers

A `Decimal` is a natural number of digits times a power of ten. `Decimal.positional` writes it
without an exponent, and `Decimal.ofChars?` reads the usual notation: digits with an optional
point, then an optional exponent.
-/

namespace Weir

/-- The number `digits * 10 ^ exponent`. -/
structure Decimal where
  digits : Nat
  exponent : Int
  deriving DecidableEq, Repr

namespace Decimal

/-- The exact value. -/
def toRat (d : Decimal) : Rat := (d.digits : Rat) * (10 : Rat) ^ d.exponent

/-! ## Writing -/

/-- The number in positional notation: zeros fill the places between the digits and the point. -/
def positional (d : Decimal) : String :=
  let digits := d.digits.repr
  let places := (-d.exponent).toNat
  if places = 0 then digits ++ String.ofList (List.replicate d.exponent.toNat '0')
  else
    let padded := List.replicate (places + 1 - digits.length) '0' ++ digits.toList
    let whole := padded.length - places
    String.ofList (padded.take whole ++ '.' :: padded.drop whole)

/-! ## Reading -/

/-- The value of a row of decimal digits. -/
def ofDigits (cs : List Char) : Nat :=
  cs.foldl (fun n c => 10 * n + (c.toNat - '0'.toNat)) 0

/-- Splits off a leading sign; `true` stands for minus. -/
def splitSign : List Char → Bool × List Char
  | '-' :: cs => (true, cs)
  | '+' :: cs => (false, cs)
  | cs => (false, cs)

/-- Reads an exponent: a mark, an optional sign and at least one digit, up to the end. -/
def exponentOfChars? : List Char → Option Int
  | [] => some 0
  | mark :: cs =>
    let (negative, digits) := splitSign cs
    if (mark = 'e' ∨ mark = 'E') ∧ digits ≠ [] ∧ digits.all Char.isDigit then
      let n : Int := ofDigits digits
      some (if negative then -n else n)
    else none

/-- Reads an unsigned number: digits with an optional point, at least one digit in all, and an
optional exponent. -/
def ofChars? (cs : List Char) : Option Decimal :=
  let whole := cs.takeWhile Char.isDigit
  let (fraction, rest) := match cs.dropWhile Char.isDigit with
    | '.' :: more => (more.takeWhile Char.isDigit, more.dropWhile Char.isDigit)
    | more => ([], more)
  if whole = [] ∧ fraction = [] then none
  else (exponentOfChars? rest).map fun e => ⟨ofDigits (whole ++ fraction), e - fraction.length⟩

end Decimal

end Weir
