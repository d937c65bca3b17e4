import Weir.Binary.Arithmetic

/-!
# JSON values

`Json` keeps what a reader of JSON text can tell apart: numbers written as integers of at most
64 bits from all other numbers, and the fields of an object in their written order with
repetitions. Text that is well formed but stands for no value, such as a number past the range of
a double or a string with half of a surrogate pair, is `Json.unreadable`.
-/

namespace Weir

/-- A JSON value. -/
inductive Json where
  | null
  | bool (value : Bool)
  | int (value : Int)
  | float (value : Double)
  | string (value : String)
  | array (items : List Json)
  | object (fields : List (String × Json))
  | unreadable
  deriving BEq, Inhabited

namespace Json

/-- A number as a JSON value. What is not finite has no such value, and null stands for it. -/
def ofDouble (x : Double) : Json := if x.isFinite then .float x else .null

/-- The value of the first field called `key`. -/
def get? (key : String) : Json → Option Json
  | .object fields => fields.lookup key
  | _ => none

mutual

/-- Nesting of arrays and objects: zero for a scalar, one for a container of scalars. -/
def depth : Json → Nat
  | .array items => depthOfItems items + 1
  | .object fields => depthOfFields fields + 1
  | _ => 0
termination_by structural j => j

/-- Greatest depth among the items of an array. -/
def depthOfItems : List Json → Nat
  | [] => 0
  | j :: js => max j.depth (depthOfItems js)
termination_by structural js => js

/-- Greatest depth among the fields of an object. -/
def depthOfFields : List (String × Json) → Nat
  | [] => 0
  | (_, j) :: js => max j.depth (depthOfFields js)
termination_by structural js => js

end

end Json

end Weir
