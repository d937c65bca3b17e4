import Weir.Binary.Format
import Weir.Source.Operator
import Weir.Source.Type

/-!
# Source programs

A program is a list of host imports and a list of functions. Every expression and statement knows
the stretch of text it came from; names that can be pointed at on their own are `Ident`s.
-/

namespace Weir.Source

/-- A stretch of text, from `start` up to `stop`, in one file. -/
structure Span where
  start : UInt64
  stop : UInt64
  fileId : UInt64
  deriving DecidableEq, Repr, Inhabited

namespace Span

/-- The span of things that come from no text. -/
def empty : Span := ⟨0, 0, 0⟩

/-- The smallest span around two spans, in the file of the first. -/
def merge (a b : Span) : Span := ⟨min a.start b.start, max a.stop b.stop, a.fileId⟩

end Span

/-- A name and where it stands. -/
structure Ident where
  span : Span
  name : String
  deriving DecidableEq, Inhabited

/-- A literal. Integers are 64 bits wide and signed. -/
inductive Literal where
  | int (value : BitVec 64)
  | float (value : Double)
  | boolean (value : Bool)
  deriving DecidableEq

/-- An expression. -/
inductive Expr where
  | literal (span : Span) (value : Literal)
  | name (span : Span) (name : String)
  | binary (span : Span) (op : BinaryOp) (left right : Expr)
  | unary (span : Span) (op : UnaryOp) (operand : Expr)
  | assign (span : Span) (op : AssignOp) (target : Ident) (value : Expr)
  | call (span : Span) (callee : Ident) (args : List Expr)
  | cast (span : Span) (operand : Expr) (ty : Ty)
  | paren (span : Span) (inner : Expr)

/-- Where an expression stands. -/
def Expr.span : Expr → Span
  | literal span .. | name span .. | binary span .. | unary span .. | assign span ..
  | call span .. | cast span .. | paren span .. => span

/-- How a variable is declared. Only `const` forbids later assignments. -/
inductive VarKind where
  | letVar
  | constVar
  | varVar
  deriving DecidableEq, Repr, Inhabited

/-- One variable of a declaration. -/
structure Declarator where
  ident : Ident
  declared : Option Ty
  init : Option Expr

mutual

/-- A statement. -/
inductive Stmt where
  | exprStmt (span : Span) (expr : Expr)
  | varDecl (span : Span) (kind : VarKind) (declarators : List Declarator)
  | returnStmt (span : Span) (value : Option Expr)
  | ifStmt (span : Span) (condition : Expr) (thenStmt : Stmt) (elseStmt : Option Stmt)
  | forStmt (span : Span) (init : Option Stmt) (condition update : Option Expr)
      (body : Option Stmt)
  | whileStmt (span : Span) (condition : Expr) (body : Option Stmt)
  | doWhile (span : Span) (body : Stmt) (condition : Expr)
  | block (span : Span) (stmts : List Stmt)
  | breakStmt (span : Span)
  | continueStmt (span : Span)
  | switchStmt (span : Span) (discriminant : Expr) (clauses : List Clause)
  | empty (span : Span)

/-- A clause of a switch; one without a test is a default clause. -/
inductive Clause where
  | mk (test : Option Expr) (body : List Stmt) (span : Span)

end

/-- Where a statement stands. -/
def Stmt.span : Stmt → Span
  | exprStmt span .. | varDecl span .. | returnStmt span .. | ifStmt span .. | forStmt span ..
  | whileStmt span .. | doWhile span .. | block span .. | breakStmt span | continueStmt span
  | switchStmt span .. | empty span => span

/-- What a statement is called in messages. -/
def Stmt.kindName : Stmt → String
  | exprStmt .. => "expression"
  | varDecl .. => "variable declaration"
  | returnStmt .. => "return"
  | ifStmt .. => "if"
  | forStmt .. => "for"
  | whileStmt .. => "while"
  | doWhile .. => "do-while"
  | block .. => "block"
  | breakStmt _ => "break"
  | continueStmt _ => "continue"
  | switchStmt .. => "switch"
  | empty _ => "empty"

/-- A parameter of a function. -/
structure Param where
  name : String
  ty : Ty
  deriving DecidableEq

/-- A function. The body has a span of its own. -/
structure Function where
  name : String
  params : List Param
  result : Ty
  bodySpan : Span
  body : List Stmt
  isExported : Bool
  span : Span

/-- A function that the host provides. -/
structure Import where
  name : String
  params : List Ty
  result : Ty
  deriving DecidableEq

/-- A program. -/
structure Program where
  imports : List Import
  functions : List Function

end Weir.Source
