import Weir.Binary.Arithmetic
import Weir.Machine.Trap

/-!
# Meaning of the operators

Integer arithmetic wraps around; only division can trap. Shift counts are taken modulo the width.
An operator that is not defined on its operands traps with the slot it expected.
-/

namespace Weir.Code

open Weir.Machine (Trap)

namespace Value

/-- The 32-bit integer in a value. -/
def toI32 : Value → Except Trap (BitVec 32)
  | i32 value => .ok value
  | v => .error (.typeMismatch .i32 v.slot)

/-- The integer of a given slot in a value. -/
def toInt? : (s : IntSlot) → Value → Option (BitVec s.bits)
  | .i32, i32 value => some value
  | .i64, i64 value => some value
  | _, _ => none

/-- The floating-point number of a given slot in a value. -/
def toFloat? : (s : FloatSlot) → Value → Option (Binary s.format)
  | .f32, f32 value => some value
  | .f64, f64 value => some value
  | _, _ => none

end Value

/-- The least integer of a slot. -/
def IntSlot.least (s : IntSlot) (signed : Bool) : Int :=
  if signed then -((1 <<< (s.bits - 1) : Nat) : Int) else 0

/-- The greatest integer of a slot. -/
def IntSlot.greatest (s : IntSlot) (signed : Bool) : Int :=
  if signed then ((1 <<< (s.bits - 1) : Nat) : Int) - 1 else ((1 <<< s.bits : Nat) : Int) - 1

/-- The result of an operator on one operand. -/
def UnaryOp.eval (op : UnaryOp) (v : Value) : Except Trap Value :=
  match op, v with
  | eqz, .i32 a => .ok (.ofBool (a == 0))
  | eqz, .i64 a => .ok (.ofBool (a == 0))
  | neg, .f32 x => .ok (.f32 x.neg)
  | neg, .f64 x => .ok (.f64 x.neg)
  | eqz, v => .error (.typeMismatch .i32 v.slot)
  | neg, v => .error (.typeMismatch .f64 v.slot)

namespace BinaryOp

/-- The result of an operator on integers of one width. -/
def onInts {w : Nat} (inject : BitVec w → Value) (op : BinaryOp) (a b : BitVec w) :
    Except Trap Value :=
  let count := b.toNat % w
  match op with
  | add => .ok (inject (a + b))
  | sub => .ok (inject (a - b))
  | mul => .ok (inject (a * b))
  | divS =>
    if b = 0 then .error .integerDivideByZero
    -- This is the only quotient that is out of range.
    else if a = BitVec.intMin w ∧ b = -1 then .error .integerOverflow
    else .ok (inject (a.sdiv b))
  | divU => if b = 0 then .error .integerDivideByZero else .ok (inject (a / b))
  | remS => if b = 0 then .error .integerDivideByZero else .ok (inject (a.srem b))
  | remU => if b = 0 then .error .integerDivideByZero else .ok (inject (a % b))
  | and => .ok (inject (a &&& b))
  | or => .ok (inject (a ||| b))
  | xor => .ok (inject (a ^^^ b))
  | shl => .ok (inject (a <<< count))
  | shrS => .ok (inject (a.sshiftRight count))
  | shrU => .ok (inject (a >>> count))
  | eq => .ok (.ofBool (a == b))
  | ne => .ok (.ofBool (a != b))
  | ltS => .ok (.ofBool (a.slt b))
  | ltU => .ok (.ofBool (a.ult b))
  | leS => .ok (.ofBool (a.sle b))
  | leU => .ok (.ofBool (a.ule b))
  | gtS => .ok (.ofBool (b.slt a))
  | gtU => .ok (.ofBool (b.ult a))
  | geS => .ok (.ofBool (b.sle a))
  | geU => .ok (.ofBool (b.ule a))
  | div | lt | le | gt | ge => .error (.typeMismatch .f64 (inject a).slot)

/-- The result of an operator on floating-point numbers of one format. -/
def onFloats {f : Format} (inject : Binary f → Value) (op : BinaryOp) (x y : Binary f) :
    Except Trap Value :=
  match op with
  | add => .ok (inject (x.add y))
  | sub => .ok (inject (x.sub y))
  | mul => .ok (inject (x.mul y))
  | div => .ok (inject (x.div y))
  | eq => .ok (.ofBool (x.eq y))
  | ne => .ok (.ofBool (!x.eq y))
  | lt => .ok (.ofBool (x.lt y))
  | le => .ok (.ofBool (x.le y))
  | gt => .ok (.ofBool (y.lt x))
  | ge => .ok (.ofBool (y.le x))
  | _ => .error (.typeMismatch .i32 (inject x).slot)

/-- The result of an operator on two values, which have to lie in the same slot. -/
def eval (op : BinaryOp) (v w : Value) : Except Trap Value :=
  match v, w with
  | .i32 a, .i32 b => op.onInts .i32 a b
  | .i64 a, .i64 b => op.onInts .i64 a b
  | .f32 x, .f32 y => op.onFloats .f32 x y
  | .f64 x, .f64 y => op.onFloats .f64 x y
  | v, w => .error (.typeMismatch v.slot w.slot)

end BinaryOp

/-- The result of a conversion. -/
def Conversion.eval (c : Conversion) (v : Value) : Except Trap Value :=
  let result? : Option Value := match c, v with
    | wrap, .i64 a => some (.i32 (a.setWidth 32))
    | extend true, .i32 a => some (.i64 (a.signExtend 64))
    | extend false, .i32 a => some (.i64 (a.setWidth 64))
    | extend8, .i32 a => some (.i32 ((a.setWidth 8).signExtend 32))
    | extend16, .i32 a => some (.i32 ((a.setWidth 16).signExtend 32))
    -- Numbers out of range go to the nearest integer in range.
    | truncate target source signed, v => (v.toFloat? source).map fun x =>
      .ofInt target (BitVec.ofInt _ (x.truncate (target.least signed) (target.greatest signed)))
    | convert target source signed, v => (v.toInt? source).map fun a =>
      .ofFloat target (Binary.ofInt (if signed then a.toInt else a.toNat))
    | demote, .f64 x => some (.f32 x.convert)
    | promote, .f32 x => some (.f64 x.convert)
    | _, _ => none
  match result? with
  | some v => .ok v
  | none => .error (.typeMismatch c.operand v.slot)

end Weir.Code
