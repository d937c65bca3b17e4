import Weir.Code.Operator

/-!
# Code trees

Code is a tree of `Node`s with structured control: blocks and loops bind labels, and branches leave
a block or restart a loop by its label. Statements are nodes without a value.
-/

namespace Weir.Code

/-- What a label is for within the construct that binds it: leaving it, going on with its next
round, its loop head, the clause of a switch with a given ordinal, or its default clause. -/
inductive LabelKind where
  | exit
  | next
  | head
  | clause (ordinal : Nat)
  | fallback
  deriving DecidableEq, Repr, Inhabited

/-- A label. The scope number is unique to the construct within its function. -/
structure Label where
  kind : LabelKind
  scope : Nat
  deriving DecidableEq, Repr, Inhabited

/-- The label as text. -/
def Label.toText (l : Label) : String :=
  let kind := match l.kind with
    | .exit => "break"
    | .next => "continue"
    | .head => "loop"
    | .clause ordinal => "case" ++ toString ordinal
    | .fallback => "default"
  kind ++ "$" ++ toString l.scope

/-- A node of code. Locals and callees are numbered; the slots on `localGet`, `localTee` and `call`
say what is expected there. -/
inductive Node where
  | nop
  | unreachable
  | block (label : Option Label) (children : List Node)
  | loop (label : Label) (body : Node)
  | ifThen (result : Slot) (condition thenNode : Node)
  | ifElse (result : Slot) (condition thenNode elseNode : Node)
  | select (condition ifTrue ifFalse : Node)
  | br (label : Label)
  | brIf (label : Label) (condition : Node)
  | brTable (labels : List Label) (fallback : Label) (index : Node)
  | ret
  | retValue (value : Node)
  | drop (value : Node)
  | const (value : Value)
  | localGet (index : Nat) (slot : Slot)
  | localSet (index : Nat) (value : Node)
  | localTee (index : Nat) (slot : Slot) (value : Node)
  | unary (op : UnaryOp) (operand : Slot) (value : Node)
  | binary (op : BinaryOp) (operand : Slot) (left right : Node)
  | convert (conversion : Conversion) (value : Node)
  | call (callee : Nat) (args : List Node) (result : Slot)
  deriving Inhabited

namespace Node

/-- A 32-bit integer constant. -/
def i32Const (n : Int) : Node := const (.i32 (BitVec.ofInt 32 n))

/-- A 64-bit integer constant. -/
def i64Const (n : Int) : Node := const (.i64 (BitVec.ofInt 64 n))

/-- The slot of the value that a node yields. -/
def slot : Node → Slot
  | nop | unreachable | block .. | loop .. | br _ | brIf .. | brTable .. | ret | retValue _
  | drop _ | localSet .. => .none
  | ifThen result .. | ifElse result .. => result
  | select _ ifTrue _ => ifTrue.slot
  | const value => value.slot
  | localGet _ slot | localTee _ slot _ => slot
  | unary op operand _ => op.result operand
  | binary op operand _ _ => op.result operand
  | convert conversion _ => conversion.result
  | call _ _ result => result

/-- Whether control never passes a node. -/
def isTerminator : Node → Bool
  | unreachable | ret | retValue _ | br _ | brTable .. => true
  | _ => false

end Node

end Weir.Code
