/-!
# Source operators

The operators of the source language with the symbols that messages show for them. A compound
assignment applies the binary operator that `AssignOp.operator?` gives.
-/

namespace Weir.Source

/-- A binary operator. -/
inductive BinaryOp where
  | add
  | sub
  | mul
  | div
  | mod
  | eq
  | ne
  | lt
  | le
  | gt
  | ge
  | and
  | or
  | bitAnd
  | bitOr
  | bitXor
  | shiftLeft
  | shiftRight
  | shiftRightUnsigned
  deriving DecidableEq, Repr, Inhabited

namespace BinaryOp

/-- The symbol of an operator. -/
def symbol : BinaryOp → String
  | add => "+"
  | sub => "-"
  | mul => "*"
  | div => "/"
  | mod => "%"
  | eq => "=="
  | ne => "!="
  | lt => "<"
  | le => "<="
  | gt => ">"
  | ge => ">="
  | and => "&&"
  | or => "||"
  | bitAnd => "&"
  | bitOr => "|"
  | bitXor => "^"
  | shiftLeft => "<<"
  | shiftRight => ">>"
  | shiftRightUnsigned => ">>>"

/-- Whether the operator compares its operands. -/
def isComparison : BinaryOp → Bool
  | eq | ne | lt | le | gt | ge => true
  | _ => false

/-- Whether the operator may leave its right operand out. -/
def isLogical : BinaryOp → Bool
  | and | or => true
  | _ => false

end BinaryOp

/-- A unary operator. -/
inductive UnaryOp where
  | plus
  | minus
  | not
  | bitNot
  deriving DecidableEq, Repr, Inhabited

/-- The symbol of an operator. -/
def UnaryOp.symbol : UnaryOp → String
  | plus => "+"
  | minus => "-"
  | not => "!"
  | bitNot => "~"

/-- An assignment operator. -/
inductive AssignOp where
  | assign
  | add
  | sub
  | mul
  | div
  | mod
  | shiftLeft
  | shiftRight
  | shiftRightUnsigned
  | bitAnd
  | bitOr
  | bitXor
  deriving DecidableEq, Repr, Inhabited

/-- The binary operator that a compound assignment applies to its target and its value. -/
def AssignOp.operator? : AssignOp → Option BinaryOp
  | assign => none
  | add => some .add
  | sub => some .sub
  | mul => some .mul
  | div => some .div
  | mod => some .mod
  | shiftLeft => some .shiftLeft
  | shiftRight => some .shiftRight
  | shiftRightUnsigned => some .shiftRightUnsigned
  | bitAnd => some .bitAnd
  | bitOr => some .bitOr
  | bitXor => some .bitXor

end Weir.Source
