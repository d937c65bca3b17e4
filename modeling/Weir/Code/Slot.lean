import Weir.Binary.Text

/-!
# Slots and values

Code works on four kinds of value. A `Slot` says which of them a local, a parameter or a node
holds, `none` standing for no value at all; a `Value` is what is in it. Integers are bit patterns:
each operator decides whether it reads them with a sign.

* `Value.slot_zero`: the zero of a slot lies in that slot.
-/

namespace Weir.Code

/-- The kind of value that a place holds. -/
inductive Slot where
  | none
  | i32
  | i64
  | f32
  | f64
  deriving DecidableEq, Repr, Inhabited

namespace Slot

/-- All slots with their names. -/
def names : List (String × Slot) :=
  [("none", none), ("i32", i32), ("i64", i64), ("f32", f32), ("f64", f64)]

/-- The name of a slot. -/
def name : Slot → String
  | none => "none"
  | i32 => "i32"
  | i64 => "i64"
  | f32 => "f32"
  | f64 => "f64"

/-- The slot with a given name. -/
def ofName? (s : String) : Option Slot := names.lookup s

/-- Whether the slot holds integers. -/
def isInteger : Slot → Bool
  | i32 | i64 => true
  | _ => false

/-- Whether the slot holds floating-point numbers. -/
def isFloat : Slot → Bool
  | f32 | f64 => true
  | _ => false

@[simp] theorem ofName?_name (s : Slot) : ofName? s.name = some s := by
  cases s <;> decide

end Slot

/-- A slot for integers. -/
inductive IntSlot where
  | i32
  | i64
  deriving DecidableEq, Repr, Inhabited

namespace IntSlot

/-- The slot itself. -/
def slot : IntSlot → Slot
  | i32 => .i32
  | i64 => .i64

/-- Width of the integers. -/
def bits : IntSlot → Nat
  | i32 => 32
  | i64 => 64

end IntSlot

/-- A slot for floating-point numbers. -/
inductive FloatSlot where
  | f32
  | f64
  deriving DecidableEq, Repr, Inhabited

namespace FloatSlot

/-- The slot itself. -/
def slot : FloatSlot → Slot
  | f32 => .f32
  | f64 => .f64

/-- Format of the numbers. -/
def format : FloatSlot → Format
  | f32 => .single
  | f64 => .double

end FloatSlot

/-- A value. -/
inductive Value where
  | i32 (value : BitVec 32)
  | i64 (value : BitVec 64)
  | f32 (value : Single)
  | f64 (value : Double)
  deriving DecidableEq

namespace Value

/-- The slot that a value lies in. -/
def slot : Value → Slot
  | i32 _ => .i32
  | i64 _ => .i64
  | f32 _ => .f32
  | f64 _ => .f64

/-- The zero of a slot. -/
def zero? : Slot → Option Value
  | .none => none
  | .i32 => some (i32 0)
  | .i64 => some (i64 0)
  | .f32 => some (f32 (Binary.zero false))
  | .f64 => some (f64 (Binary.zero false))

/-- The value of an integer slot with a given bit pattern. -/
def ofInt : (s : IntSlot) → BitVec s.bits → Value
  | .i32, b => i32 b
  | .i64, b => i64 b

/-- The value of a floating-point slot. -/
def ofFloat : (s : FloatSlot) → Binary s.format → Value
  | .f32, x => f32 x
  | .f64, x => f64 x

/-- A truth value, as one or zero. -/
def ofBool (b : Bool) : Value := i32 (if b then 1 else 0)

/-- The number as text; integers are signed. -/
def toText : Value → String
  | i32 value => toString value.toInt
  | i64 value => toString value.toInt
  | f32 value => value.toText
  | f64 value => value.toText

@[simp] theorem slot_ofBool (b : Bool) : (ofBool b).slot = .i32 := rfl

@[simp] theorem slot_ofInt (s : IntSlot) (b : BitVec s.bits) : (ofInt s b).slot = s.slot := by
  cases s <;> rfl

@[simp] theorem slot_ofFloat (s : FloatSlot) (x : Binary s.format) :
    (ofFloat s x).slot = s.slot := by
  cases s <;> rfl

theorem slot_zero {s : Slot} {v : Value} (h : zero? s = some v) : v.slot = s := by
  cases s <;> simp_all [zero?] <;> subst h <;> rfl

end Value

end Weir.Code
