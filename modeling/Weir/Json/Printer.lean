import Weir.Json.Basic
import Weir.Decimal.Shortest

/-!
# Writing JSON text

`Json.render` writes a value on one line without blanks. A float always has a point or an
exponent, so that it is read back as a float; the digits are the shortest ones.
-/

namespace Weir

namespace Decimal

/-- The number with a point or an exponent: positional while it has at most sixteen digits before
the point or at most five places of zeros after it, else one digit, a point and an exponent. -/
def scientific (d : Decimal) : String :=
  let digits := d.digits.repr
  let point : Int := digits.length + d.exponent
  if 0 ≤ d.exponent ∧ point ≤ 16 then d.positional ++ ".0"
  else if -5 < point ∧ point ≤ 16 then d.positional
  else
    let mantissa := match digits.toList with
      | first :: second :: rest => String.ofList (first :: '.' :: second :: rest)
      | _ => digits
    mantissa ++ "e" ++ toString (point - 1)

end Decimal

namespace Json

/-- A float as JSON text; what is not a number has none and is written as null. -/
def renderFloat (x : Double) : String :=
  if x.isNaN || x.isInfinite then "null"
  else
    let body := if x.isZero then "0.0" else x.shortest.scientific
    if x.negative then "-" ++ body else body

/-- The escape of one character. -/
def escape (c : Char) : String :=
  match c with
  | '"' => "\\\""
  | '\\' => "\\\\"
  | '\n' => "\\n"
  | '\r' => "\\r"
  | '\t' => "\\t"
  | _ =>
    if c < ' ' then
      "\\u00" ++ String.ofList [Nat.digitChar (c.toNat / 16), Nat.digitChar (c.toNat % 16)]
    else String.singleton c

/-- A string between quotes. -/
def renderString (s : String) : String :=
  "\"" ++ s.toList.foldl (fun acc c => acc ++ escape c) "" ++ "\""

mutual

/-- A value as JSON text. -/
def render : Json → String
  | .null | .unreadable => "null"
  | .bool b => if b then "true" else "false"
  | .int n => toString n
  | .float x => renderFloat x
  | .string s => renderString s
  | .array items => "[" ++ ",".intercalate (renderItems items) ++ "]"
  | .object fields => "\x7b" ++ ",".intercalate (renderFields fields) ++ "\x7d"
termination_by structural j => j

/-- The texts of array items. -/
def renderItems : List Json → List String
  | [] => []
  | j :: js => render j :: renderItems js
termination_by structural js => js

/-- The texts of object fields. -/
def renderFields : List (String × Json) → List String
  | [] => []
  | (key, j) :: js => (renderString key ++ ":" ++ render j) :: renderFields js
termination_by structural js => js

end

end Json

end Weir
