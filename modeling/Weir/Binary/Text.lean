import Weir.Decimal.Shortest

/-!
# Text of binary floating-point numbers

`Binary.toText` writes the shortest digits that read back to the same number of the same format, in
positional notation. `Binary.ofText?` reads any decimal notation, rounding it once, and the names
of the values that have no digits.
-/

namespace Weir.Binary

variable {f : Format}

/-- The number as text: `NaN`, `inf`, `-0`, or its shortest digits without an exponent. -/
def toText (x : Binary f) : String :=
  if x.isNaN then "NaN"
  else
    let body :=
      if x.isInfinite then "inf"
      else if x.isZero then "0"
      else x.shortest.positional
    if x.negative then "-" ++ body else body

/-- The number nearest to a decimal. Decimals far outside the range of the format are settled by
their size alone, so that no power of ten is larger than the range calls for. -/
def ofDecimal (negative : Bool) (d : Decimal) : Binary f :=
  let size : Int := d.digits.log2 + 3 * d.exponent
  if d.digits = 0 then zero negative
  else if 0 < d.exponent ∧ (f.bias + 1 : Nat) < size then infinity negative
  else if d.exponent < 0 ∧ size + 1 < f.leastExponent - 1 then zero negative
  else ofAbsRat negative d.toRat

/-- Reads an optional sign and then a decimal, `inf`, `infinity` or `nan`, in any letter case. -/
def ofText? (text : String) : Option (Binary f) :=
  let (negative, body) := Decimal.splitSign text.toList
  let word := String.ofList (body.map Char.toLower)
  if word = "inf" ∨ word = "infinity" then some (infinity negative)
  else if word = "nan" then some { (nan : Binary f) with negative }
  else (Decimal.ofChars? body).map (ofDecimal negative)

end Weir.Binary
