import Weir.Lowering.Expression
import Weir.Machine.Eval

/-!
# Evaluating source expressions

What an expression does, told without its code: operands come before their operator and in order,
every one of them once, the right operand of `&&` or `||` is left out where the left one decides, a
compound assignment reads its target first, and the arguments of a call come before the call. What
is done to the values in between, converting them, bringing them into the range of a type and
applying an operator, can trap and has no other effect.

The compiler is asked for types only: which type an operand has where it stands.

## Key definitions

- `convertValue`: what a conversion makes of a value
- `Meeting`: the types for which the two operands of an operator are compiled
- `evaluate`, `evaluateArgs`: what expressions do
-/

namespace Weir.Machine

open Weir.Code

/-- The value that has to be there. -/
def present : Option Value → Except Trap Value
  | some v => .ok v
  | none => .error .missingValue

/-- An operator on one value, on a value that has to be there. -/
def onPresent (f : Value → Except Trap Value) (v : Option Value) : Except Trap (Option Value) := do
  let a ← present v
  let r ← f a
  pure (some r)

/-- A run without its result. -/
def Run.effect {σ α : Type} (run : Run σ α) : Run σ Unit := do
  let _ ← run
  pure ()

end Weir.Machine

namespace Weir.Lowering

open Weir.Code (Conversion Value)
open Weir.Machine
open Weir.Source (AssignOp BinaryOp Expr Ident Literal PointerWidth Span Ty UnaryOp)

variable {σ : Type}

/-! ## Values -/

/-- The value of a literal where a type is expected. -/
def literalValue (w : PointerWidth) (literal : Literal) (expected : Ty) : Value :=
  match literal with
  | .boolean b => .ofBool b
  | .float x => if expected.resolve w = .f32 then .f32 x.convert else .f64 x
  | .int n => integerConstant n (compileLiteral w literal expected).ty

/-- The value brought into the range of a small type. -/
def narrow (t : Ty) (v : Option Value) : Except Trap (Option Value) :=
  match t with
  | .i8 => onPresent Conversion.extend8.eval v
  | .i16 => onPresent Conversion.extend16.eval v
  | .u8 => onPresent (Code.BinaryOp.and.eval · (.i32 (BitVec.ofInt 32 0xff))) v
  | .u16 => onPresent (Code.BinaryOp.and.eval · (.i32 (BitVec.ofInt 32 0xffff))) v
  | .bool => onPresent (Code.BinaryOp.ne.eval · (.i32 (BitVec.ofInt 32 0))) v
  | _ => .ok v

/-- The conversion that moves numbers from the slot of one type to that of another. -/
def slotChange? (w : PointerWidth) (source target : Ty) : Option Conversion :=
  if source.isFloat && target.isFloat then
    some (if source = .f32 && target = .f64 then .promote else .demote)
  else if target.isFloat then
    some (.convert target.floatSlot (source.intSlot w) source.isSigned)
  else if source.isFloat then
    some (.truncate (target.intSlot w) source.floatSlot target.isSigned)
  else match source.intSlot w, target.intSlot w with
    | .i32, .i64 => some (.extend source.isSigned)
    | .i64, .i32 => some .wrap
    | _, _ => none

/-- The value moved from the slot of one type to that of another. -/
def changeValue (w : PointerWidth) (source target : Ty) (v : Option Value) :
    Except Trap (Option Value) :=
  match slotChange? w source target with
  | some c => onPresent c.eval v
  | none => .ok v

/-- What a conversion between fixed-width types makes of a value. -/
def convertResolved (w : PointerWidth) (source target : Ty) (v : Option Value) :
    Except Trap (Option Value) :=
  if source = target then .ok v
  else if target.isVoid then .ok none
  else if source.isVoid then .error .unreachable
  else if target = .bool then
    match Value.zero? (source.slot w) with
    | some zero => onPresent (Code.BinaryOp.ne.eval · zero) v
    | none => .error .unreachable
  else do
    let moved ← changeValue w source target v
    if target.bits w < 32 && !losslessResolved source target then narrow target moved
    else .ok moved

/-- What a conversion makes of a value. -/
def convertValue (w : PointerWidth) (source target : Ty) (v : Option Value) :
    Except Trap (Option Value) :=
  convertResolved w (source.resolve w) (target.resolve w) v

/-- A binary operator on two values of a type. -/
def operate (op : BinaryOp) (t : Ty) (a b : Value) : Except Trap (Option Value) :=
  match operatorFor? op t with
  | none => .error .unreachable
  | some code => do
    let r ← code.eval a b
    if op.isComparison then .ok (some r) else narrow t (some r)

/-- A number of a type under a minus sign. -/
def negate (w : PointerWidth) (t : Ty) (v : Value) : Except Trap (Option Value) :=
  if t.isFloat then do
    let r ← Code.UnaryOp.neg.eval v
    pure (some r)
  else match Value.zero? (t.slot w) with
    | none => .error .missingValue
    | some zero => do
      let r ← Code.BinaryOp.sub.eval zero v
      narrow t (some r)

/-- The complement of an integer of a type. -/
def complement (w : PointerWidth) (t : Ty) (v : Value) : Except Trap (Option Value) := do
  let ones : Value := if t.slot w = .i64 then .i64 (BitVec.ofInt 64 (-1))
    else .i32 (BitVec.ofInt 32 (-1))
  let r ← Code.BinaryOp.xor.eval v ones
  narrow t (some r)

/-! ## Operands -/

/-- An operand with what it does where a type is expected of it. -/
structure Part (σ : Type) where
  operand : Operand
  run : Ty → Run σ (Option Value)

/-- Evaluates an operand for one type and converts its value to another. -/
def Part.converted (w : PointerWidth) (p : Part σ) (expected target : Ty) :
    Run σ (Option Value) := do
  let v ← p.run expected
  Run.ofExcept (convertValue w (p.operand.compile expected).value.ty target v)

/-- The types for which the two operands of an operator are compiled in the end, and the type to
which both are converted. -/
structure Meeting where
  left : Ty
  right : Ty
  operand : Ty

/-- Where the operands of an operator meet. Only a literal is compiled again for the type that suits
both, and truth values are calculated with as numbers. -/
def meeting (w : PointerWidth) (op : BinaryOp) (left right : Operand) (expected : Ty) : Meeting :=
  let hint := if op.isComparison then .void else expected
  let l := (left.compile hint).value
  let hint' := if left.isLiteral then hint else l.ty
  let r := (right.compile hint').value
  let common := unify w l.ty r.ty
  { left := if l.ty ≠ common ∧ left.isLiteral then common else hint
    right := if r.ty ≠ common ∧ right.isLiteral then common else hint'
    operand := if common = .bool && !op.isComparison then .i32 else common }

/-- Evaluates an operator that decides whether its right operand is evaluated. -/
def evaluateLogical (w : PointerWidth) (isAnd : Bool) (left right : Part σ) :
    Run σ (Option Value) := do
  let b ← Run.condition (left.converted w .bool .bool)
  -- The right side decides only where the left one has not.
  if b = isAnd then right.converted w .bool .bool else pure (some (.ofBool b))

/-- Evaluates an operator after both of its operands. -/
def evaluateStrict (w : PointerWidth) (op : BinaryOp) (left right : Part σ) (expected : Ty) :
    Run σ (Option Value) := do
  let m := meeting w op left.operand right.operand expected
  let a ← Run.value (left.converted w m.left m.operand)
  let b ← Run.value (right.converted w m.right m.operand)
  Run.ofExcept (operate op m.operand a b)

/-- Evaluates a binary operator. -/
def evaluateBinary (w : PointerWidth) (op : BinaryOp) (left right : Part σ) (expected : Ty) :
    Run σ (Option Value) :=
  match op with
  | .and => evaluateLogical w true left right
  | .or => evaluateLogical w false left right
  | _ => evaluateStrict w op left right expected

/-- The type of what a binary operator yields. -/
def operationType (w : PointerWidth) (op : BinaryOp) (left right : Operand) (expected : Ty) : Ty :=
  if op.isComparison || op.isLogical then .bool else (meeting w op left right expected).operand

/-- Evaluates a unary operator; `literal?` is the operand if it is a bare literal. -/
def evaluateUnary (w : PointerWidth) (op : UnaryOp) (p : Part σ) (literal? : Option Literal)
    (expected : Ty) : Run σ (Option Value) :=
  let t := (p.operand.compile expected).value.ty.resolve w
  match op, literal? with
  | .plus, _ => p.run expected
  | .not, _ => do
    let v ← p.converted w .bool .bool
    Run.ofExcept (onPresent Code.UnaryOp.eqz.eval v)
  -- A number under a minus sign is a number of its own.
  | .minus, some (.int n) => pure (some (literalValue w (.int (-n)) expected))
  | .minus, some (.float x) => pure (some (literalValue w (.float x.neg) expected))
  | .minus, _ => do
    let v ← Run.value (p.run expected)
    Run.ofExcept (negate w t v)
  | .bitNot, _ => do
    let v ← Run.value (p.run expected)
    Run.ofExcept (complement w t v)

/-- A variable as an operand. -/
def Part.variable (w : PointerWidth) (v : Variable) (span : Span) : Part σ where
  operand := ⟨fun _ => pure (readVariable w v), false, span⟩
  run _ := do
    let x ← Run.getLocal v.index
    pure (some x)

/-- Evaluates the new value of a variable. A compound assignment reads the variable first. -/
def evaluateUpdate (w : PointerWidth) (op : AssignOp) (v : Variable) (target : Ident)
    (p : Part σ) : Run σ (Option Value) :=
  match op.operator? with
  | none => p.converted w v.ty v.ty
  | some op => do
    let current : Part σ := .variable w v target.span
    let x ← evaluateBinary w op current p v.ty
    Run.ofExcept (convertValue w (operationType w op current.operand p.operand v.ty) v.ty x)

/-! ## Expressions -/

mutual

/-- Evaluates an expression where a type is expected, given how calls are run. A name that stands
for nothing has no value. -/
def evaluate (call : Nat → List Value → Run σ (Option Value)) (ctx : Context) :
    Expr → Ty → Run σ (Option Value)
  | .literal _ value, expected => pure (some (literalValue ctx.width value expected))
  | .paren _ inner, expected => evaluate call ctx inner expected
  | .name _ name, _ =>
    match ctx.bindings.find? name with
    | none => Run.trap .unreachable
    | some v => do
      let x ← Run.getLocal v.index
      pure (some x)
  | .unary _ op operand, expected =>
    evaluateUnary ctx.width op ⟨.ofExpr ctx operand, evaluate call ctx operand⟩
      (literalOf? operand) expected
  | .binary _ op left right, expected =>
    evaluateBinary ctx.width op ⟨.ofExpr ctx left, evaluate call ctx left⟩
      ⟨.ofExpr ctx right, evaluate call ctx right⟩ expected
  | .assign _ op target value, _ =>
    match ctx.bindings.find? target.name with
    | none => Run.trap .unreachable
    | some v => do
      -- What is assigned is converted to the type of the variable, and is the value of the
      -- expression.
      let x ← Run.value
        (evaluateUpdate ctx.width op v target ⟨.ofExpr ctx value, evaluate call ctx value⟩)
      Run.setLocal v.index x
      pure (some x)
  | .call _ callee args, _ =>
    match ctx.functions.find? callee.name with
    | none => Run.trap .unreachable
    | some s => do
      -- All arguments are evaluated before the call.
      let vs ← evaluateArgs call ctx args s.params
      call s.id vs
  | .cast _ operand t, _ =>
    Part.converted ctx.width ⟨.ofExpr ctx operand, evaluate call ctx operand⟩ t t
termination_by structural e => e

/-- Evaluates the arguments of a call in order, each converted to the type of its parameter before
the next one is evaluated. -/
def evaluateArgs (call : Nat → List Value → Run σ (Option Value)) (ctx : Context) :
    List Expr → List Ty → Run σ (List Value)
  | arg :: args, t :: ts => do
    let v ← Run.value (Part.converted ctx.width ⟨.ofExpr ctx arg, evaluate call ctx arg⟩ t t)
    let vs ← evaluateArgs call ctx args ts
    pure (v :: vs)
  | _, _ => pure []
termination_by structural args => args

end

/-- An expression as an operand with what it does. -/
def Part.ofExpr (call : Nat → List Value → Run σ (Option Value)) (ctx : Context) (e : Expr) :
    Part σ :=
  ⟨.ofExpr ctx e, evaluate call ctx e⟩

end Weir.Lowering
