import Weir.Json.Basic

/-!
# Decoding JSON values

A `Decoder` reads a domain value out of a JSON value whose arrays and objects may still nest to a
given depth. Records may be objects, whose unknown fields are passed over and whose known fields
may not be repeated, or arrays of the fields in their declared order.
-/

namespace Weir

/-- Reads a value out of JSON nested at most as deep as the first argument allows. -/
abbrev Decoder (α : Type) : Type := Nat → Json → Option α

namespace Decoder

variable {α : Type}

/-- A string. -/
def string : Decoder String
  | _, .string s => some s
  | _, _ => none

/-- A truth value. -/
def bool : Decoder Bool
  | _, .bool b => some b
  | _, _ => none

/-- An integer from `0` to `2 ^ 64 - 1`. -/
def unsigned : Decoder UInt64
  | _, .int n => if 0 ≤ n ∧ n < UInt64.size then some (UInt64.ofNat n.toNat) else none
  | _, _ => none

/-- An integer from `-2 ^ 63` to `2 ^ 63 - 1`. -/
def signed : Decoder (BitVec 64)
  | _, .int n => if (BitVec.ofInt 64 n).toInt = n then some (BitVec.ofInt 64 n) else none
  | _, _ => none

/-- Any number. -/
def double : Decoder Double
  | _, .int n => some (Binary.ofInt n)
  | _, .float x => some x
  | _, _ => none

/-- A value or null. -/
def nullable (d : Decoder α) : Decoder (Option α)
  | _, .null => some none
  | n, j => (d n j).map some

/-- An array. -/
def list (d : Decoder α) : Decoder (List α)
  | n + 1, .array items => items.mapM (d n)
  | _, _ => none

/-! ## Tagged values -/

/-- A tag with its content, if it has any, and the depth left for the content: a string is a bare
tag, an object with one field is a tag with content. -/
def tagged? : Nat → Json → Option (String × Option (Nat × Json))
  | _, .string tag => some (tag, none)
  | n + 1, .object [(tag, content)] => some (tag, some (n, content))
  | _, _ => none

/-- A bare tag out of a table. It may also be written as a tag with null for its content. -/
def oneOf (table : List (String × α)) : Decoder α := fun n j =>
  match tagged? n j with
  | some (tag, none) | some (tag, some (_, .null)) => table.lookup tag
  | _ => none

/-! ## Records -/

/-- The fields of a record by name, with the depth left for their values. In an array the missing
fields are those past its end. -/
structure Fields where
  depth : Nat
  isArray : Bool
  values : List (String × Option Json)

/-- Reads the fields with the given names, in declared order. -/
def fields? (names : List String) : Nat → Json → Option Fields
  | n + 1, .object fields =>
    if names.all fun name => fields.countP (·.1 = name) ≤ 1 then
      some ⟨n, false, names.map fun name => (name, fields.lookup name)⟩
    else none
  | n + 1, .array items =>
    if items.length ≤ names.length then
      some ⟨n, true, names.mapIdx fun i name => (name, items[i]?)⟩
    else none
  | _, _ => none

namespace Fields

/-- The value of a field, if it is present. -/
def get (r : Fields) (name : String) : Option Json := (r.values.lookup name).join

/-- A field that has to be present. -/
def required (r : Fields) (name : String) (d : Decoder α) : Option α :=
  (r.get name).bind (d r.depth)

/-- A field that takes the given value when missing. -/
def orElse (r : Fields) (name : String) (missing : α) (d : Decoder α) : Option α :=
  match r.get name with
  | none => some missing
  | some j => d r.depth j

/-- A field that may be null, and that an object may leave out. -/
def nullable (r : Fields) (name : String) (d : Decoder α) : Option (Option α) :=
  match r.get name with
  | none => if r.isArray then none else some none
  | some j => Decoder.nullable d r.depth j

end Fields

end Decoder

end Weir
