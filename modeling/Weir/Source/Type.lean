/-!
# Source types

`Ty` lists the value types of the source language. All but `usize` have a fixed width; `usize` is
an unsigned integer as wide as a pointer, and `Ty.resolve` names that integer for a given width.

* `Ty.resolve_resolve`: resolving twice is resolving once.
* `Ty.ofName?_name`: a type is found again by its name.
-/

namespace Weir.Source

/-- Width of a pointer. -/
inductive PointerWidth where
  | w32
  | w64
  deriving DecidableEq, Repr, Inhabited

namespace PointerWidth

/-- The width in bits. -/
def bits : PointerWidth → Nat
  | w32 => 32
  | w64 => 64

/-- The pointer width of a number of bits; only 32 and 64 are supported. -/
def ofBits? (n : Nat) : Option PointerWidth :=
  if n = 32 then some w32 else if n = 64 then some w64 else none

@[simp] theorem ofBits?_bits (w : PointerWidth) : ofBits? w.bits = some w := by
  cases w <;> rfl

end PointerWidth

/-- A source type. `void` has no value, and `bool` is stored as zero or one. -/
inductive Ty where
  | void
  | bool
  | i8
  | u8
  | i16
  | u16
  | i32
  | u32
  | i64
  | u64
  | usize
  | f32
  | f64
  deriving DecidableEq, Repr, Inhabited

namespace Ty

/-- All source types with their names. -/
def names : List (String × Ty) :=
  [("void", void), ("bool", bool), ("i8", i8), ("u8", u8), ("i16", i16), ("u16", u16),
    ("i32", i32), ("u32", u32), ("i64", i64), ("u64", u64), ("usize", usize), ("f32", f32),
    ("f64", f64)]

/-- The name of a type. -/
def name : Ty → String
  | void => "void"
  | bool => "bool"
  | i8 => "i8"
  | u8 => "u8"
  | i16 => "i16"
  | u16 => "u16"
  | i32 => "i32"
  | u32 => "u32"
  | i64 => "i64"
  | u64 => "u64"
  | usize => "usize"
  | f32 => "f32"
  | f64 => "f64"

/-- The type with a given name. -/
def ofName? (s : String) : Option Ty := names.lookup s

/-- Whether values of the type carry nothing. -/
def isVoid (t : Ty) : Bool := t = void

/-- Whether the type is an integer type; `bool` is none. -/
def isInteger : Ty → Bool
  | i8 | u8 | i16 | u16 | i32 | u32 | i64 | u64 | usize => true
  | _ => false

/-- Whether the type is a floating-point type. -/
def isFloat : Ty → Bool
  | f32 | f64 => true
  | _ => false

/-- Signed integers and floating-point types; `bool` counts as unsigned. -/
def isSigned : Ty → Bool
  | i8 | i16 | i32 | i64 | f32 | f64 => true
  | _ => false

/-- Number of value bits. -/
def bits (w : PointerWidth) : Ty → Nat
  | void => 0
  | bool => 1
  | i8 | u8 => 8
  | i16 | u16 => 16
  | i32 | u32 | f32 => 32
  | i64 | u64 | f64 => 64
  | usize => w.bits

/-- The fixed-width type that stands for `usize`; any other type stands for itself. -/
def resolve (w : PointerWidth) : Ty → Ty
  | usize => match w with
    | .w32 => u32
    | .w64 => u64
  | t => t

/-! ## Laws -/

@[simp] theorem resolve_resolve (w : PointerWidth) (t : Ty) :
    (t.resolve w).resolve w = t.resolve w := by
  cases w <;> cases t <;> rfl

@[simp] theorem bits_resolve (w : PointerWidth) (t : Ty) : (t.resolve w).bits w = t.bits w := by
  cases w <;> cases t <;> rfl

@[simp] theorem isVoid_resolve (w : PointerWidth) (t : Ty) : (t.resolve w).isVoid = t.isVoid := by
  cases w <;> cases t <;> rfl

@[simp] theorem ofName?_name (t : Ty) : ofName? t.name = some t := by
  cases t <;> decide

end Ty

end Weir.Source
