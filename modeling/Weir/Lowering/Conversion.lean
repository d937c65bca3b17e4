import Weir.Code.Node
import Weir.Source.Type

/-!
# Conversions between source types

Small integers and `bool` live in 32-bit slots and are kept normalised: the slot always holds the
number itself, read with a sign. An implicit conversion is allowed only where it is `lossless`; an
explicit one always succeeds. `coerce` builds the code of either.
-/

namespace Weir

open Weir.Code

namespace Source.Ty

variable (w : PointerWidth)

/-- The slot that values of a type are kept in. -/
def slot (t : Ty) : Slot :=
  match t.resolve w with
  | void => .none
  | bool | i8 | u8 | i16 | u16 | i32 | u32 => .i32
  | i64 | u64 | usize => .i64
  | f32 => .f32
  | f64 => .f64

/-- The slot of an integer type or `bool`. -/
def intSlot (t : Ty) : IntSlot :=
  match t.resolve w with
  | i64 | u64 => .i64
  | _ => .i32

/-- The slot of a floating-point type. -/
def floatSlot : Ty → FloatSlot
  | f32 => .f32
  | _ => .f64

@[simp] theorem slot_resolve (t : Ty) : (t.resolve w).slot w = t.slot w := by
  simp [slot]

end Source.Ty

namespace Lowering

open Weir.Source (Ty PointerWidth)

/-- Whether every value of one fixed-width type is a value of another. -/
def losslessResolved (source target : Ty) : Bool :=
  let bits := Ty.bits .w32
  if source = target || target.isVoid then true
  else match source, target with
    | .void, _ | _, .bool => false
    | .bool, _ => true
    | s, t =>
      if s.isInteger && t.isInteger then
        match s.isSigned, t.isSigned with
        | true, false => false
        | false, true => bits s < bits t
        | _, _ => bits s ≤ bits t
      else match t with
        -- The significands of the two formats have 24 and 53 bits.
        | .f32 => s.isInteger && bits s ≤ 24
        | .f64 => (s.isInteger && bits s ≤ 53) || s = .f32
        | _ => false

/-- Whether every value of one type is a value of another. -/
def lossless (w : PointerWidth) (source target : Ty) : Bool :=
  losslessResolved (source.resolve w) (target.resolve w)

/-- Why a conversion is refused. -/
inductive ConversionError where
  | fromVoid (target : Ty)
  | lossy (source target : Ty)
  deriving DecidableEq

/-- The message for a refused conversion. -/
def ConversionError.message : ConversionError → String
  | fromVoid target => "`void` has no value to convert to `" ++ target.name ++ "`"
  | lossy source target =>
    "converting `" ++ source.name ++ "` to `" ++ target.name ++ "` can change the value"

/-- Checks an implicit conversion. -/
def checkImplicit (w : PointerWidth) (source target : Ty) : Except ConversionError Unit :=
  if source.isVoid && !target.isVoid then .error (.fromVoid target)
  else if lossless w source target then .ok ()
  else .error (.lossy source target)

/-- Checks an explicit conversion: only a value that is not there cannot be converted. -/
def checkExplicit (source target : Ty) : Except ConversionError Unit :=
  if source.isVoid && !target.isVoid then .error (.fromVoid target) else .ok ()

/-- Brings the 32-bit result of an operation on a small type into the range of the type. -/
def normalize (value : Node) : Ty → Node
  | .i8 => .convert .extend8 value
  | .i16 => .convert .extend16 value
  | .u8 => .binary .and .i32 value (.i32Const 0xff)
  | .u16 => .binary .and .i32 value (.i32Const 0xffff)
  | .bool => .binary .ne .i32 value (.i32Const 0)
  | _ => value

/-- A node that evaluates another and then traps, standing for a value that is not there. -/
def absent (value : Node) : Node := .block none [value, .unreachable]

/-- Tests a value for being different from zero. -/
def truthTest (value : Node) (s : Slot) : Node :=
  match Value.zero? s with
  | some zero => .binary .ne s value (.const zero)
  | none => absent value

/-- Moves a number between slots. -/
def changeSlot (w : PointerWidth) (value : Node) (source target : Ty) : Node :=
  if source.isFloat && target.isFloat then
    if source = .f32 && target = .f64 then .convert .promote value else .convert .demote value
  else if target.isFloat then
    .convert (.convert target.floatSlot (source.intSlot w) source.isSigned) value
  else if source.isFloat then
    .convert (.truncate (target.intSlot w) source.floatSlot target.isSigned) value
  else match source.intSlot w, target.intSlot w with
    | .i32, .i64 => .convert (.extend source.isSigned) value
    | .i64, .i32 => .convert .wrap value
    | _, _ => value

/-- Converts a value between fixed-width types. -/
def coerceResolved (w : PointerWidth) (value : Node) (source target : Ty) : Node :=
  if source = target then value
  else if target.isVoid then .drop value
  else if source.isVoid then absent value
  else if target = .bool then truthTest value (source.slot w)
  else
    let converted := changeSlot w value source target
    -- Only a small target can be left with a number that it does not have.
    if target.bits w < 32 && !losslessResolved source target then normalize converted target
    else converted

/-- Converts a value between types, whether or not the value can change. -/
def coerce (w : PointerWidth) (value : Node) (source target : Ty) : Node :=
  coerceResolved w value (source.resolve w) (target.resolve w)

/-- Converts a value between types if the conversion is allowed. -/
def convert (w : PointerWidth) (explicit : Bool) (value : Node) (source target : Ty) :
    Except ConversionError Node := do
  if explicit then checkExplicit source target else checkImplicit w source target
  return coerce w value source target

/-- The type in which a switch compares its discriminant with its guards. -/
def discriminantType (w : PointerWidth) (t : Ty) : Ty :=
  match t.resolve w with
  | .i64 => .i64
  | .u64 => .u64
  | .u32 => .u32
  | _ => .i32

end Lowering

end Weir
