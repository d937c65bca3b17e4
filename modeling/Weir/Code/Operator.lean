import Weir.Code.Slot

/-!
# Operators of code

Arithmetic and comparison operators work on two values of one slot; those that end in `S` or `U`
read integers with or without a sign, and their plain forms are for floating-point numbers.
Conversions go from one slot to another, or widen the low bits of a 32-bit integer.
-/

namespace Weir.Code

/-- An operator with two operands. -/
inductive BinaryOp where
  | add
  | sub
  | mul
  | divS
  | divU
  | remS
  | remU
  | div
  | and
  | or
  | xor
  | shl
  | shrS
  | shrU
  | eq
  | ne
  | ltS
  | ltU
  | leS
  | leU
  | gtS
  | gtU
  | geS
  | geU
  | lt
  | le
  | gt
  | ge
  deriving DecidableEq, Repr, Inhabited

namespace BinaryOp

/-- All operators. -/
def all : List BinaryOp :=
  [add, sub, mul, divS, divU, remS, remU, div, and, or, xor, shl, shrS, shrU, eq, ne, ltS, ltU,
    leS, leU, gtS, gtU, geS, geU, lt, le, gt, ge]

/-- The name of an operator. -/
def mnemonic : BinaryOp → String
  | add => "add"
  | sub => "sub"
  | mul => "mul"
  | divS => "div_s"
  | divU => "div_u"
  | remS => "rem_s"
  | remU => "rem_u"
  | div => "div"
  | and => "and"
  | or => "or"
  | xor => "xor"
  | shl => "shl"
  | shrS => "shr_s"
  | shrU => "shr_u"
  | eq => "eq"
  | ne => "ne"
  | ltS => "lt_s"
  | ltU => "lt_u"
  | leS => "le_s"
  | leU => "le_u"
  | gtS => "gt_s"
  | gtU => "gt_u"
  | geS => "ge_s"
  | geU => "ge_u"
  | lt => "lt"
  | le => "le"
  | gt => "gt"
  | ge => "ge"

/-- The operator with a given name. -/
def ofMnemonic? (s : String) : Option BinaryOp := all.find? (·.mnemonic = s)

/-- Whether the operator yields a truth value. -/
def isComparison : BinaryOp → Bool
  | eq | ne | ltS | ltU | leS | leU | gtS | gtU | geS | geU | lt | le | gt | ge => true
  | _ => false

/-- Whether the operator is defined on operands of the given slot. -/
def accepts (op : BinaryOp) (operand : Slot) : Bool :=
  match op with
  | add | sub | mul | eq | ne => operand != .none
  | div | lt | le | gt | ge => operand.isFloat
  | _ => operand.isInteger

/-- The slot of the result. -/
def result (op : BinaryOp) (operand : Slot) : Slot := if op.isComparison then .i32 else operand

theorem mem_all (op : BinaryOp) : op ∈ all := by
  cases op <;> decide

end BinaryOp

/-- An operator with one operand: the test of an integer for zero, and the negation of a
floating-point number. -/
inductive UnaryOp where
  | eqz
  | neg
  deriving DecidableEq, Repr, Inhabited

namespace UnaryOp

/-- The name of an operator. -/
def mnemonic : UnaryOp → String
  | eqz => "eqz"
  | neg => "neg"

/-- The slot of the result. -/
def result (op : UnaryOp) (operand : Slot) : Slot :=
  match op with
  | eqz => .i32
  | neg => operand

end UnaryOp

/-- A conversion. Truncation of a floating-point number saturates at the ends of the integer
type; `signed` says how the integer is read. -/
inductive Conversion where
  | wrap
  | extend (signed : Bool)
  | extend8
  | extend16
  | truncate (target : IntSlot) (source : FloatSlot) (signed : Bool)
  | convert (target : FloatSlot) (source : IntSlot) (signed : Bool)
  | demote
  | promote
  deriving DecidableEq, Repr, Inhabited

namespace Conversion

/-- All conversions. -/
def all : List Conversion :=
  [wrap, extend true, extend false, extend8, extend16] ++
    ([IntSlot.i32, .i64].flatMap fun t => [FloatSlot.f32, .f64].flatMap fun s =>
      [truncate t s true, truncate t s false]) ++
    ([FloatSlot.f32, .f64].flatMap fun t => [IntSlot.i32, .i64].flatMap fun s =>
      [convert t s true, convert t s false]) ++
    [demote, promote]

/-- The slot of the operand. -/
def operand : Conversion → Slot
  | wrap => .i64
  | extend _ | extend8 | extend16 => .i32
  | truncate _ source _ => source.slot
  | convert _ source _ => source.slot
  | demote => .f64
  | promote => .f32

/-- The slot of the result. -/
def result : Conversion → Slot
  | wrap | extend8 | extend16 => .i32
  | extend _ => .i64
  | truncate target _ _ => target.slot
  | convert target _ _ => target.slot
  | demote => .f32
  | promote => .f64

/-- The ending of a name that says whether integers are read with a sign. -/
def signSuffix (signed : Bool) : String := if signed then "_s" else "_u"

/-- The name of a conversion: the slot of the result, what is done, and the slot it is done to. -/
def mnemonic (c : Conversion) : String :=
  c.result.name ++ match c with
  | wrap => ".wrap_i64"
  | extend signed => ".extend_i32" ++ signSuffix signed
  | extend8 => ".extend8_s"
  | extend16 => ".extend16_s"
  | truncate _ source signed => ".trunc_sat_" ++ source.slot.name ++ signSuffix signed
  | convert _ source signed => ".convert_" ++ source.slot.name ++ signSuffix signed
  | demote => ".demote_f64"
  | promote => ".promote_f32"

/-- The conversion with a given name. -/
def ofMnemonic? (s : String) : Option Conversion := all.find? (·.mnemonic = s)

theorem mem_all (c : Conversion) : c ∈ all := by
  cases c with
  | extend signed => cases signed <;> decide
  | truncate target source signed => cases target <;> cases source <;> cases signed <;> decide
  | convert target source signed => cases target <;> cases source <;> cases signed <;> decide
  | _ => decide

end Conversion

end Weir.Code
