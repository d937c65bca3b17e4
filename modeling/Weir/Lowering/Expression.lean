import Weir.Lowering.Conversion
import Weir.Lowering.Scope

/-!
# Compiling expressions

`compile` turns an expression into code of a source type. The type that the surroundings expect
only steers literals: they take it if it can hold them, and otherwise the type that suits them
best. The operands of a binary operator meet in the narrowest type that holds both.

Compiling changes nothing but the list of reported problems, so its result is a `Reported` value.
-/

namespace Weir.Lowering

open Weir.Code (Node Value Slot)
open Weir.Source (AssignOp BinaryOp Expr Ident Literal PointerWidth Span Ty UnaryOp)

/-- A result with the problems reported on the way to it, in order. -/
structure Reported (α : Type) where
  value : α
  reports : List Diagnostic

namespace Reported

instance : Monad Reported where
  pure a := ⟨a, []⟩
  bind r f :=
    let next := f r.value
    ⟨next.value, r.reports ++ next.reports⟩

/-- Reports a problem. -/
def report (problem : Problem) (span : Span) : Reported Unit := ⟨(), [⟨problem, span⟩]⟩

@[simp] theorem value_pure {α : Type} (a : α) : (pure a : Reported α).value = a := rfl

@[simp] theorem value_bind {α β : Type} (r : Reported α) (f : α → Reported β) :
    (r >>= f).value = (f r.value).value := rfl

end Reported

open Reported (report)

/-- What is known while an expression is compiled. -/
structure Context where
  width : PointerWidth
  functions : FunctionTable
  bindings : Variables

/-- Code that yields a value of a source type. -/
structure Compiled where
  node : Node
  ty : Ty

/-- Converts a value implicitly; a conversion that could change it is reported. -/
def convertImplicit (w : PointerWidth) (value : Node) (source target : Ty) (span : Span) :
    Reported Node := do
  match checkImplicit w source target with
  | .ok () => pure ()
  | .error (.fromVoid _) => report .voidValue span
  | .error (.lossy source target) => report (.implicitConversion source target) span
  pure (coerce w value source target)

/-- Converts a value explicitly; only a value that is not there is reported. -/
def convertExplicit (w : PointerWidth) (value : Node) (source target : Ty) (span : Span) :
    Reported Node := do
  match checkExplicit source target with
  | .ok () => pure ()
  | .error _ => report .voidValue span
  pure (coerce w value source target)

@[simp] theorem convertImplicit_value (w : PointerWidth) (n : Node) (source target : Ty)
    (span : Span) : (convertImplicit w n source target span).value = coerce w n source target := by
  unfold convertImplicit
  split <;> rfl

@[simp] theorem convertExplicit_value (w : PointerWidth) (n : Node) (source target : Ty)
    (span : Span) : (convertExplicit w n source target span).value = coerce w n source target := by
  unfold convertExplicit
  split <;> rfl

/-- The type of an expression that could not be compiled. -/
def fallbackType (w : PointerWidth) (expected : Ty) : Ty :=
  if expected.isVoid then .i32 else expected.resolve w

/-- Reports a problem and yields code that traps. -/
def poisoned (w : PointerWidth) (expected : Ty) (problem : Problem) (span : Span) :
    Reported Compiled := do
  report problem span
  pure ⟨.unreachable, fallbackType w expected⟩

/-! ## Literals -/

/-- Whether an integer literal is a number of a fixed-width type. Floating-point types take any. -/
def literalFits (value : BitVec 64) (t : Ty) : Bool :=
  let n := value.toInt
  match t with
  | .i8 => -128 ≤ n && n ≤ 127
  | .u8 => 0 ≤ n && n ≤ 255
  | .i16 => -32768 ≤ n && n ≤ 32767
  | .u16 => 0 ≤ n && n ≤ 65535
  | .i32 => -2147483648 ≤ n && n ≤ 2147483647
  | .u32 => 0 ≤ n && n ≤ 4294967295
  | .i64 => true
  | .u64 => 0 ≤ n
  | t => t.isFloat

/-- The constant for an integer literal that fits a fixed-width type. -/
def integerConstant (value : BitVec 64) (t : Ty) : Value :=
  match t with
  | .i64 | .u64 => .i64 value
  | .f32 => .f32 (Binary.ofInt value.toInt)
  | .f64 => .f64 (Binary.ofInt value.toInt)
  -- Smaller integers and truth values are kept in a 32-bit slot.
  | _ => .i32 (value.setWidth 32)

/-- Compiles a literal. An integer that does not fit the expected type keeps its natural type. -/
def compileLiteral (w : PointerWidth) (literal : Literal) (expected : Ty) : Compiled :=
  let expected := expected.resolve w
  match literal with
  | .boolean value => ⟨.const (.ofBool value), .bool⟩
  | .float value =>
    if expected = .f32 then ⟨.const (.f32 value.convert), .f32⟩ else ⟨.const (.f64 value), .f64⟩
  | .int value =>
    let t :=
      if literalFits value expected then expected
      else if literalFits value .i32 then .i32
      else .i64
    ⟨.const (integerConstant value t), t⟩

/-- Whether an expression is a literal, in parentheses or under signs. -/
def isLiteral : Expr → Bool
  | .literal .. => true
  | .paren _ inner => isLiteral inner
  | .unary _ .minus operand | .unary _ .plus operand => isLiteral operand
  | _ => false

/-! ## Operands -/

/-- An expression as an operand: how it compiles for an expected type, and what the operator needs
to know of it. -/
structure Operand where
  compile : Ty → Reported Compiled
  isLiteral : Bool
  span : Span

/-- Compiles an operand to a truth value. -/
def Operand.condition (w : PointerWidth) (e : Operand) : Reported Node := do
  let c ← e.compile .bool
  convertExplicit w c.node c.ty .bool e.span

/-- The type in which two operands meet. -/
def unify (w : PointerWidth) (a b : Ty) : Ty :=
  let a := a.resolve w
  let b := b.resolve w
  if a = b || b.isVoid then a
  else if a.isVoid then b
  else if a.isFloat || b.isFloat then
    if a = .f64 || b = .f64 then .f64
    else
      let other := if a = .f32 then b else a
      if losslessResolved other .f32 then .f32 else .f64
  else if losslessResolved a b then b
  else if losslessResolved b a then a
  -- Neither type holds the other one, but the widest signed type holds both.
  else if max (a.bits w) (b.bits w) < 64 then .i64
  else if b.bits w ≤ a.bits w then a
  else b

/-- The operator of code for a source operator on a fixed-width type, if it is defined there. -/
def operatorFor? (op : BinaryOp) (t : Ty) : Option Code.BinaryOp :=
  let pick (float signed unsigned : Code.BinaryOp) : Code.BinaryOp :=
    if t.isFloat then float else if t.isSigned then signed else unsigned
  let integer (o : Code.BinaryOp) : Option Code.BinaryOp := if t.isFloat then none else some o
  match op with
  | .add => some .add
  | .sub => some .sub
  | .mul => some .mul
  | .div => some (pick .div .divS .divU)
  | .mod => integer (if t.isSigned then .remS else .remU)
  | .eq => some .eq
  | .ne => some .ne
  | .lt => some (pick .lt .ltS .ltU)
  | .le => some (pick .le .leS .leU)
  | .gt => some (pick .gt .gtS .gtU)
  | .ge => some (pick .ge .geS .geU)
  | .bitAnd => integer .and
  | .bitOr => integer .or
  | .bitXor => integer .xor
  | .shiftLeft => integer .shl
  | .shiftRight => integer (if t.isSigned then .shrS else .shrU)
  | .shiftRightUnsigned => integer .shrU
  | .and | .or => none

/-- Compiles `&&` and `||`, which leave their right operand out where the left one decides. -/
def compileLogical (w : PointerWidth) (isAnd : Bool) (left right : Operand) :
    Reported Compiled := do
  let l ← left.condition w
  let r ← right.condition w
  pure ⟨if isAnd then .ifElse .i32 l r (.i32Const 0) else .ifElse .i32 l (.i32Const 1) r, .bool⟩

/-- Compiles a literal operand again for the type in which the operands meet. -/
def Operand.retype (e : Operand) (c : Compiled) (common : Ty) : Reported Compiled :=
  if c.ty ≠ common ∧ e.isLiteral then e.compile common else pure c

/-- Compiles a binary operator on two operands that are always evaluated. -/
def compileStrict (w : PointerWidth) (op : BinaryOp) (left right : Operand) (expected : Ty)
    (span : Span) : Reported Compiled := do
  let hint := if op.isComparison then .void else expected
  let l ← left.compile hint
  -- The right operand is compiled for the type of the left one, unless that is a literal.
  let r ← right.compile (if left.isLiteral then hint else l.ty)
  let common := unify w l.ty r.ty
  if common.isVoid then poisoned w expected .voidValue span
  else
    let l ← left.retype l common
    let r ← right.retype r common
    -- Truth values are calculated with as numbers.
    let operand := if common = .bool && !op.isComparison then .i32 else common
    match operatorFor? op operand with
    | none => poisoned w expected (.invalidOperand op.symbol operand) span
    | some code =>
      let l ← convertImplicit w l.node l.ty operand left.span
      let r ← convertImplicit w r.node r.ty operand right.span
      let node : Node := .binary code (operand.slot w) l r
      pure (if op.isComparison then ⟨node, .bool⟩ else ⟨normalize node operand, operand⟩)

/-- Compiles a binary operator. -/
def compileBinary (w : PointerWidth) (op : BinaryOp) (left right : Operand) (expected : Ty)
    (span : Span) : Reported Compiled :=
  match op with
  | .and => compileLogical w true left right
  | .or => compileLogical w false left right
  | _ => compileStrict w op left right expected span

/-- Compiles a unary operator; `literal?` is the operand if it is a bare literal. -/
def compileUnary (w : PointerWidth) (op : UnaryOp) (operand : Operand) (literal? : Option Literal)
    (expected : Ty) (span : Span) : Reported Compiled :=
  match op, literal? with
  | .plus, _ => operand.compile expected
  | .not, _ => do
    let test ← operand.condition w
    pure ⟨.unary .eqz .i32 test, .bool⟩
  | .minus, some (.int value) => pure (compileLiteral w (.int (-value)) expected)
  | .minus, some (.float value) => pure (compileLiteral w (.float value.neg) expected)
  | .minus, _ => do
    let c ← operand.compile expected
    let t := c.ty.resolve w
    let s := t.slot w
    if t.isFloat then pure ⟨.unary .neg s c.node, t⟩
    else if t.isInteger then
      -- Integers have no operator for the sign: they are subtracted from zero.
      let zero : Node := match Value.zero? s with
        | some zero => .const zero
        | none => .nop
      pure ⟨normalize (.binary .sub s zero c.node) t, t⟩
    else poisoned w expected (.invalidOperand op.symbol t) span
  | .bitNot, _ => do
    let c ← operand.compile expected
    let t := c.ty.resolve w
    if t.isInteger then
      let ones : Node := if t.slot w = .i64 then .i64Const (-1) else .i32Const (-1)
      pure ⟨normalize (.binary .xor (t.slot w) c.node ones) t, t⟩
    else poisoned w expected (.invalidOperand op.symbol t) span

/-! ## Names -/

/-- Reads a variable. -/
def readVariable (w : PointerWidth) (v : Variable) : Compiled :=
  ⟨.localGet v.index (v.ty.slot w), v.ty⟩

/-- The variable and the new value of an assignment, unless the variable is unknown. A compound
assignment is the binary operator on the variable and the value. -/
def compileUpdate (ctx : Context) (op : AssignOp) (target : Ident) (value : Operand) (span : Span) :
    Reported (Option (Variable × Node)) := do
  match ctx.bindings.find? target.name with
  | none =>
    report (.unknownIdentifier target.name) target.span
    pure none
  | some v =>
    -- An assignment to a constant is reported, and compiled all the same.
    if v.isConst then report (.assignToConst target.name) target.span
    let c ← match op.operator? with
      | none => value.compile v.ty
      | some op =>
        let current : Operand := ⟨fun _ => pure (readVariable ctx.width v), false, target.span⟩
        compileBinary ctx.width op current value v.ty span
    let node ← convertImplicit ctx.width c.node c.ty v.ty value.span
    pure (some (v, node))

/-- The bare literal that an expression is. -/
def literalOf? : Expr → Option Literal
  | .literal _ value => some value
  | _ => none

mutual

/-- Compiles an expression for an expected type; `void` stands for no expectation. -/
def compile (ctx : Context) : Expr → Ty → Reported Compiled
  | .literal _ value, expected => pure (compileLiteral ctx.width value expected)
  | .paren _ inner, expected => compile ctx inner expected
  | .name span name, expected =>
    match ctx.bindings.find? name with
    | some v => pure (readVariable ctx.width v)
    | none => poisoned ctx.width expected (.unknownIdentifier name) span
  | .unary span op operand, expected =>
    compileUnary ctx.width op ⟨compile ctx operand, isLiteral operand, operand.span⟩
      (literalOf? operand) expected span
  | .binary span op left right, expected =>
    compileBinary ctx.width op ⟨compile ctx left, isLiteral left, left.span⟩
      ⟨compile ctx right, isLiteral right, right.span⟩ expected span
  | .assign span op target value, _ => do
    match ← compileUpdate ctx op target ⟨compile ctx value, isLiteral value, value.span⟩ span with
    | none => pure ⟨.unreachable, .void⟩
    | some (v, node) => pure ⟨.localTee v.index (v.ty.slot ctx.width) node, v.ty⟩
  | .call span callee args, expected =>
    match ctx.functions.find? callee.name with
    | none => poisoned ctx.width expected (.unknownFunction callee.name) callee.span
    | some s =>
      if s.params.length ≠ args.length then
        poisoned ctx.width expected (.arityMismatch callee.name s.params.length args.length) span
      else do
        let values ← compileArgs ctx args s.params
        pure ⟨.call s.id values (s.result.slot ctx.width), s.result⟩
  | .cast _ operand t, _ => do
    let c ← compile ctx operand t
    let node ← convertExplicit ctx.width c.node c.ty t operand.span
    pure ⟨node, t⟩
termination_by structural e => e

/-- Compiles the arguments of a call, each converted to the type of its parameter. -/
def compileArgs (ctx : Context) : List Expr → List Ty → Reported (List Node)
  | arg :: args, t :: ts => do
    let c ← compile ctx arg t
    let node ← convertImplicit ctx.width c.node c.ty t arg.span
    let nodes ← compileArgs ctx args ts
    pure (node :: nodes)
  | _, _ => pure []
termination_by structural args => args

end

/-- An expression as an operand. -/
def Operand.ofExpr (ctx : Context) (e : Expr) : Operand :=
  ⟨Lowering.compile ctx e, Lowering.isLiteral e, e.span⟩

/-- Compiles an expression for a truth value: any number is tested against zero. -/
def compileCondition (ctx : Context) (e : Expr) : Reported Node :=
  (Operand.ofExpr ctx e).condition ctx.width

/-- Compiles an expression whose value is not used. -/
def compileDiscarded (ctx : Context) : Expr → Reported Node
  | .paren _ inner => compileDiscarded ctx inner
  | .assign span op target value => do
    match ← compileUpdate ctx op target (.ofExpr ctx value) span with
    | none => pure .unreachable
    | some (v, node) => pure (.localSet v.index node)
  | e => do
    let c ← compile ctx e .void
    pure (if c.ty.isVoid then c.node else .drop c.node)

end Weir.Lowering
