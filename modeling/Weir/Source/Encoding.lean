import Weir.Json.Parser
import Weir.Json.Decoder
import Weir.Source.Program

/-!
# Programs as JSON

`Program.ofJson?` reads a program from its JSON encoding and `Program.toJson` writes it. Records
are objects or arrays, variants are tags; what may be left out and what may be null is said field
by field. `Program.ofText?` reads JSON text that nests at most `nestingLimit` deep.
-/

namespace Weir.Source

open Decoder

/-! ## Reading -/

namespace Ty

/-- Reads a type by its name. -/
def decoder : Decoder Ty := oneOf names

end Ty

namespace BinaryOp

/-- All operators with their tags. -/
def tags : List (String × BinaryOp) :=
  [("Add", add), ("Sub", sub), ("Mul", mul), ("Div", div), ("Mod", mod), ("Eq", eq),
    ("NotEq", ne), ("Lt", lt), ("LtEq", le), ("Gt", gt), ("GtEq", ge), ("And", and), ("Or", or),
    ("BitAnd", bitAnd), ("BitOr", bitOr), ("BitXor", bitXor), ("LeftShift", shiftLeft),
    ("RightShift", shiftRight), ("UnsignedRightShift", shiftRightUnsigned)]

/-- The tag of an operator. -/
def tag : BinaryOp → String
  | add => "Add"
  | sub => "Sub"
  | mul => "Mul"
  | div => "Div"
  | mod => "Mod"
  | eq => "Eq"
  | ne => "NotEq"
  | lt => "Lt"
  | le => "LtEq"
  | gt => "Gt"
  | ge => "GtEq"
  | and => "And"
  | or => "Or"
  | bitAnd => "BitAnd"
  | bitOr => "BitOr"
  | bitXor => "BitXor"
  | shiftLeft => "LeftShift"
  | shiftRight => "RightShift"
  | shiftRightUnsigned => "UnsignedRightShift"

/-- Reads an operator by its tag. -/
def decoder : Decoder BinaryOp := oneOf tags

end BinaryOp

namespace UnaryOp

/-- All operators with their tags. -/
def tags : List (String × UnaryOp) :=
  [("Plus", plus), ("Minus", minus), ("Not", not), ("BitNot", bitNot)]

/-- The tag of an operator. -/
def tag : UnaryOp → String
  | plus => "Plus"
  | minus => "Minus"
  | not => "Not"
  | bitNot => "BitNot"

/-- Reads an operator by its tag. -/
def decoder : Decoder UnaryOp := oneOf tags

end UnaryOp

namespace AssignOp

/-- All operators with their tags. -/
def tags : List (String × AssignOp) :=
  [("Assign", assign), ("AddAssign", add), ("SubAssign", sub), ("MulAssign", mul),
    ("DivAssign", div), ("ModAssign", mod), ("LeftShiftAssign", shiftLeft),
    ("RightShiftAssign", shiftRight), ("UnsignedRightShiftAssign", shiftRightUnsigned),
    ("BitAndAssign", bitAnd), ("BitOrAssign", bitOr), ("BitXorAssign", bitXor)]

/-- The tag of an operator. -/
def tag : AssignOp → String
  | assign => "Assign"
  | add => "AddAssign"
  | sub => "SubAssign"
  | mul => "MulAssign"
  | div => "DivAssign"
  | mod => "ModAssign"
  | shiftLeft => "LeftShiftAssign"
  | shiftRight => "RightShiftAssign"
  | shiftRightUnsigned => "UnsignedRightShiftAssign"
  | bitAnd => "BitAndAssign"
  | bitOr => "BitOrAssign"
  | bitXor => "BitXorAssign"

/-- Reads an operator by its tag. -/
def decoder : Decoder AssignOp := oneOf tags

end AssignOp

namespace VarKind

/-- All declaration kinds with their tags. -/
def tags : List (String × VarKind) := [("let", letVar), ("const", constVar), ("var", varVar)]

/-- The tag of a declaration kind. -/
def tag : VarKind → String
  | letVar => "let"
  | constVar => "const"
  | varVar => "var"

/-- Reads a declaration kind by its tag. -/
def decoder : Decoder VarKind := oneOf tags

end VarKind

/-- Reads a span; all of its fields are required. -/
def Span.decoder : Decoder Span := fun n j => do
  let r ← fields? ["start", "end", "file_id"] n j
  return ⟨← r.required "start" unsigned, ← r.required "end" unsigned,
    ← r.required "file_id" unsigned⟩

/-- Reads a value together with its span, which may be missing. -/
def spanned {α : Type} (d : Span → Decoder α) : Decoder α := fun n j => do
  let r ← fields? ["span", "value"] n j
  r.required "value" (d (← r.orElse "span" .empty Span.decoder))

/-- Reads a name that stands somewhere. -/
def Ident.decoder : Decoder Ident :=
  spanned fun span n j => (Decoder.string n j).map (Ident.mk span)

/-- Reads a literal. -/
def Literal.decoder : Decoder Literal := fun n j =>
  match tagged? n j with
  | some ("Int", some (n, j)) => (signed n j).map .int
  | some ("Float", some (n, j)) => (Decoder.double n j).map .float
  | some ("Boolean", some (n, j)) => (Decoder.bool n j).map .boolean
  | _ => none

/-- Reads an expression that nests other expressions less than `k` deep. -/
def Expr.decoder : Nat → Decoder Expr
  | 0 => fun _ _ => none
  | k + 1 => spanned fun span n j =>
    match tagged? n j with
    | some ("Literal", some (n, j)) => (Literal.decoder n j).map (.literal span)
    | some ("Ident", some (n, j)) => (Decoder.string n j).map (.name span)
    | some ("Binary", some (n, j)) => do
      let r ← fields? ["left", "op", "right"] n j
      return .binary span (← r.required "op" BinaryOp.decoder)
        (← r.required "left" (Expr.decoder k)) (← r.required "right" (Expr.decoder k))
    | some ("Unary", some (n, j)) => do
      let r ← fields? ["op", "expr"] n j
      return .unary span (← r.required "op" UnaryOp.decoder)
        (← r.required "expr" (Expr.decoder k))
    | some ("Assignment", some (n, j)) => do
      let r ← fields? ["target", "op", "value"] n j
      return .assign span (← r.required "op" AssignOp.decoder)
        (← r.required "target" Ident.decoder) (← r.required "value" (Expr.decoder k))
    | some ("Call", some (n, j)) => do
      let r ← fields? ["callee", "args"] n j
      return .call span (← r.required "callee" Ident.decoder)
        (← r.required "args" (list (Expr.decoder k)))
    | some ("TypeCast", some (n, j)) => do
      let r ← fields? ["expr", "ty"] n j
      return .cast span (← r.required "expr" (Expr.decoder k)) (← r.required "ty" Ty.decoder)
    | some ("Paren", some (n, j)) => (Expr.decoder k n j).map (.paren span)
    | _ => none

/-- Reads one variable of a declaration; type and initial value may be missing or null. -/
def Declarator.decoder (k : Nat) : Decoder Declarator := fun n j => do
  let r ← fields? ["name", "type_annotation", "init"] n j
  return ⟨← r.required "name" Ident.decoder,
    ← r.orElse "type_annotation" none (Decoder.nullable Ty.decoder),
    ← r.orElse "init" none (Decoder.nullable (Expr.decoder k))⟩

/-- Reads a clause, given how its statements are read; all of its fields may be missing. -/
def Clause.decoder (expr : Decoder Expr) (stmt : Decoder Stmt) : Decoder Clause := fun n j => do
  let r ← fields? ["test", "consequent", "span"] n j
  return .mk (← r.orElse "test" none (Decoder.nullable expr))
    (← r.orElse "consequent" [] (list stmt)) (← r.orElse "span" .empty Span.decoder)

/-- Reads the statements of a block. -/
def stmtsDecoder (stmt : Decoder Stmt) : Decoder (List Stmt) := fun n j => do
  let r ← fields? ["stmts"] n j
  r.required "stmts" (list stmt)

/-- Reads a statement that nests other statements and expressions less than `k` deep. -/
def Stmt.decoder : Nat → Decoder Stmt
  | 0 => fun _ _ => none
  | k + 1 => spanned fun span n j =>
    match tagged? n j with
    | some ("Break", none) | some ("Break", some (_, .null)) => some (.breakStmt span)
    | some ("Continue", none) | some ("Continue", some (_, .null)) => some (.continueStmt span)
    | some ("Empty", none) | some ("Empty", some (_, .null)) => some (.empty span)
    | some ("Expr", some (n, j)) => (Expr.decoder k n j).map (.exprStmt span)
    | some ("VarDecl", some (n, j)) => do
      let r ← fields? ["kind", "declarations"] n j
      return .varDecl span (← r.required "kind" VarKind.decoder)
        (← r.required "declarations" (list (Declarator.decoder k)))
    | some ("Return", some (n, j)) =>
      (Decoder.nullable (Expr.decoder k) n j).map (.returnStmt span)
    | some ("If", some (n, j)) => do
      let r ← fields? ["condition", "then_stmt", "else_stmt"] n j
      return .ifStmt span (← r.required "condition" (Expr.decoder k))
        (← r.required "then_stmt" (Stmt.decoder k)) (← r.nullable "else_stmt" (Stmt.decoder k))
    | some ("For", some (n, j)) => do
      let r ← fields? ["init", "condition", "update", "body"] n j
      return .forStmt span (← r.nullable "init" (Stmt.decoder k))
        (← r.nullable "condition" (Expr.decoder k)) (← r.nullable "update" (Expr.decoder k))
        (← r.nullable "body" (Stmt.decoder k))
    | some ("While", some (n, j)) => do
      let r ← fields? ["condition", "body"] n j
      return .whileStmt span (← r.required "condition" (Expr.decoder k))
        (← r.nullable "body" (Stmt.decoder k))
    | some ("DoWhile", some (n, j)) => do
      let r ← fields? ["body", "condition"] n j
      return .doWhile span (← r.required "body" (Stmt.decoder k))
        (← r.required "condition" (Expr.decoder k))
    | some ("Block", some (n, j)) => (stmtsDecoder (Stmt.decoder k) n j).map (.block span)
    | some ("Switch", some (n, j)) => do
      let r ← fields? ["discriminant", "cases"] n j
      return .switchStmt span (← r.required "discriminant" (Expr.decoder k))
        (← r.required "cases" (list (Clause.decoder (Expr.decoder k) (Stmt.decoder k))))
    | _ => none

/-- Reads a parameter. -/
def Param.decoder : Decoder Param := fun n j => do
  let r ← fields? ["name", "ty"] n j
  return ⟨← r.required "name" Decoder.string, ← r.required "ty" Ty.decoder⟩

/-- Reads a function whose statements nest less than `k` deep. -/
def Function.decoder (k : Nat) : Decoder Function := fun n j => do
  let r ← fields? ["name", "params", "return_type", "body", "is_export", "span"] n j
  let block : Decoder (Span × List Stmt) :=
    spanned fun span n j => (stmtsDecoder (Stmt.decoder k) n j).map (span, ·)
  let (bodySpan, body) ← r.required "body" block
  return {
    name := ← r.required "name" Decoder.string
    params := ← r.orElse "params" [] (list Param.decoder)
    result := ← r.required "return_type" Ty.decoder
    bodySpan, body
    isExported := ← r.orElse "is_export" false Decoder.bool
    span := ← r.orElse "span" .empty Span.decoder }

/-- Reads an import. -/
def Import.decoder : Decoder Import := fun n j => do
  let r ← fields? ["name", "params", "return_type"] n j
  return ⟨← r.required "name" Decoder.string, ← r.orElse "params" [] (list Ty.decoder),
    ← r.required "return_type" Ty.decoder⟩

namespace Program

/-- Reads a program whose functions nest less than `k` deep. -/
def decoder (k : Nat) : Decoder Program := fun n j => do
  let r ← fields? ["imports", "functions"] n j
  return ⟨← r.orElse "imports" [] (list Import.decoder),
    ← r.orElse "functions" [] (list (Function.decoder k))⟩

/-- Reads a program from JSON whose arrays and objects nest at most `limit` deep, fields that are
passed over aside. -/
def ofJson? (limit : Nat) (j : Json) : Option Program := decoder limit limit j

/-- The greatest nesting that program text may have. -/
def nestingLimit : Nat := 127

/-- Reads a program from JSON text. -/
def ofText? (text : String) : Option Program := (Json.parse? text).bind (ofJson? nestingLimit)

end Program

/-! ## Writing -/

/-- A span as JSON. -/
def Span.toJson (s : Span) : Json :=
  .object [("start", .int s.start.toNat), ("end", .int s.stop.toNat),
    ("file_id", .int s.fileId.toNat)]

/-- A value with its span. -/
def withSpan (span : Span) (value : Json) : Json :=
  .object [("span", span.toJson), ("value", value)]

/-- A tag with its content. -/
def withTag (tag : String) (content : Json) : Json := .object [(tag, content)]

/-- A value that may be missing. -/
def orNull {α : Type} (toJson : α → Json) : Option α → Json
  | none => .null
  | some a => toJson a

/-- A name with its span. -/
def Ident.toJson (i : Ident) : Json := withSpan i.span (.string i.name)

/-- A type by its name. -/
def Ty.toJson (t : Ty) : Json := .string t.name

/-- A literal as JSON. -/
def Literal.toJson : Literal → Json
  | int value => withTag "Int" (.int value.toInt)
  | float value => withTag "Float" (.ofDouble value)
  | boolean value => withTag "Boolean" (.bool value)

mutual

/-- An expression as JSON. -/
def Expr.toJson : Expr → Json
  | .literal span value => withSpan span (withTag "Literal" value.toJson)
  | .name span name => withSpan span (withTag "Ident" (.string name))
  | .binary span op left right => withSpan span (withTag "Binary" (.object
      [("left", left.toJson), ("op", .string op.tag), ("right", right.toJson)]))
  | .unary span op operand => withSpan span (withTag "Unary" (.object
      [("op", .string op.tag), ("expr", operand.toJson)]))
  | .assign span op target value => withSpan span (withTag "Assignment" (.object
      [("target", target.toJson), ("op", .string op.tag), ("value", value.toJson)]))
  | .call span callee args => withSpan span (withTag "Call" (.object
      [("callee", callee.toJson), ("args", .array (exprsToJson args))]))
  | .cast span operand ty => withSpan span (withTag "TypeCast" (.object
      [("expr", operand.toJson), ("ty", ty.toJson)]))
  | .paren span inner => withSpan span (withTag "Paren" inner.toJson)
termination_by structural e => e

/-- Expressions as JSON. -/
def exprsToJson : List Expr → List Json
  | [] => []
  | e :: es => e.toJson :: exprsToJson es
termination_by structural es => es

end

/-- One variable of a declaration as JSON. -/
def Declarator.toJson (d : Declarator) : Json :=
  .object [("name", d.ident.toJson), ("type_annotation", orNull Ty.toJson d.declared),
    ("init", orNull Expr.toJson d.init)]

mutual

/-- A statement as JSON. -/
def Stmt.toJson : Stmt → Json
  | .exprStmt span expr => withSpan span (withTag "Expr" expr.toJson)
  | .varDecl span kind declarators => withSpan span (withTag "VarDecl" (.object
      [("kind", .string kind.tag), ("declarations", .array (declarators.map Declarator.toJson))]))
  | .returnStmt span value => withSpan span (withTag "Return" (orNull Expr.toJson value))
  | .ifStmt span condition thenStmt elseStmt => withSpan span (withTag "If" (.object
      [("condition", condition.toJson), ("then_stmt", thenStmt.toJson),
        ("else_stmt", stmtToJson? elseStmt)]))
  | .forStmt span init condition update body => withSpan span (withTag "For" (.object
      [("init", stmtToJson? init), ("condition", orNull Expr.toJson condition),
        ("update", orNull Expr.toJson update), ("body", stmtToJson? body)]))
  | .whileStmt span condition body => withSpan span (withTag "While" (.object
      [("condition", condition.toJson), ("body", stmtToJson? body)]))
  | .doWhile span body condition => withSpan span (withTag "DoWhile" (.object
      [("body", body.toJson), ("condition", condition.toJson)]))
  | .block span stmts => withSpan span (withTag "Block" (.object
      [("stmts", .array (stmtsToJson stmts))]))
  | .breakStmt span => withSpan span (.string "Break")
  | .continueStmt span => withSpan span (.string "Continue")
  | .switchStmt span discriminant clauses => withSpan span (withTag "Switch" (.object
      [("discriminant", discriminant.toJson), ("cases", .array (clausesToJson clauses))]))
  | .empty span => withSpan span (.string "Empty")
termination_by structural s => s

/-- A statement that may be missing. -/
def stmtToJson? : Option Stmt → Json
  | none => .null
  | some s => s.toJson
termination_by structural s => s

/-- Statements as JSON. -/
def stmtsToJson : List Stmt → List Json
  | [] => []
  | s :: ss => s.toJson :: stmtsToJson ss
termination_by structural ss => ss

/-- Clauses as JSON. -/
def clausesToJson : List Clause → List Json
  | [] => []
  | .mk test body span :: cs =>
    .object [("test", orNull Expr.toJson test), ("consequent", .array (stmtsToJson body)),
      ("span", span.toJson)] :: clausesToJson cs
termination_by structural cs => cs

end

/-- A parameter as JSON. -/
def Param.toJson (p : Param) : Json :=
  .object [("name", .string p.name), ("ty", p.ty.toJson)]

/-- A function as JSON. -/
def Function.toJson (f : Function) : Json :=
  .object [("name", .string f.name), ("params", .array (f.params.map Param.toJson)),
    ("return_type", f.result.toJson),
    ("body", withSpan f.bodySpan (.object [("stmts", .array (stmtsToJson f.body))])),
    ("is_export", .bool f.isExported), ("span", f.span.toJson)]

/-- An import as JSON. -/
def Import.toJson (i : Import) : Json :=
  .object [("name", .string i.name), ("params", .array (i.params.map Ty.toJson)),
    ("return_type", i.result.toJson)]

/-- A program as JSON. -/
def Program.toJson (p : Program) : Json :=
  .object [("imports", .array (p.imports.map Import.toJson)),
    ("functions", .array (p.functions.map Function.toJson))]

end Weir.Source
