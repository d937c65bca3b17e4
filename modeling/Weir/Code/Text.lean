import Weir.Code.Module
import Weir.Code.Outline

/-!
# Text of code

Nodes, functions and imports are shown as outlines: a node is headed by its name and its own data,
and its operands are the parts below. `Module.toText` has one outline per import and function.
-/

namespace Weir.Code

/-- A label as it is referred to. -/
def Label.reference (l : Label) : String := " $" ++ l.toText

/-- The result part of a heading; none is shown for no value. -/
def resultText : Slot → String
  | .none => ""
  | s => " (result " ++ s.name ++ ")"

/-- The parameter part of a heading; none is shown for no parameters. -/
def paramsText : List Slot → String
  | [] => ""
  | slots => " (param" ++ String.join (slots.map fun s => " " ++ s.name) ++ ")"

mutual

/-- A node as an outline. -/
def Node.outline : Node → Outline
  | .nop => .item "nop" []
  | .unreachable => .item "unreachable" []
  | .block none children => .item "block" (outlines children)
  | .block (some label) children => .item ("block" ++ label.reference) (outlines children)
  | .loop label body => .item ("loop" ++ label.reference) [body.outline]
  | .ifThen result condition thenNode =>
    .item ("if" ++ resultText result) [condition.outline, .item "then" [thenNode.outline]]
  | .ifElse result condition thenNode elseNode =>
    .item ("if" ++ resultText result)
      [condition.outline, .item "then" [thenNode.outline], .item "else" [elseNode.outline]]
  | .select condition ifTrue ifFalse =>
    .item "select" [ifTrue.outline, ifFalse.outline, condition.outline]
  | .br label => .item ("br" ++ label.reference) []
  | .brIf label condition => .item ("br_if" ++ label.reference) [condition.outline]
  | .brTable labels fallback index =>
    .item ("br_table" ++ String.join ((labels ++ [fallback]).map Label.reference)) [index.outline]
  | .ret => .item "return" []
  | .retValue value => .item "return" [value.outline]
  | .drop value => .item "drop" [value.outline]
  | .const value => .item (value.slot.name ++ ".const " ++ value.toText) []
  | .localGet index _ => .item ("local.get " ++ toString index) []
  | .localSet index value => .item ("local.set " ++ toString index) [value.outline]
  | .localTee index _ value => .item ("local.tee " ++ toString index) [value.outline]
  | .unary op operand value => .item (operand.name ++ "." ++ op.mnemonic) [value.outline]
  | .binary op operand left right =>
    .item (operand.name ++ "." ++ op.mnemonic) [left.outline, right.outline]
  | .convert conversion value => .item conversion.mnemonic [value.outline]
  | .call callee args _ => .item ("call " ++ toString callee) (outlines args)
termination_by structural n => n

/-- Nodes as outlines. -/
def outlines : List Node → List Outline
  | [] => []
  | n :: ns => n.outline :: outlines ns
termination_by structural ns => ns

end

/-- The text of a node. -/
def Node.toText (n : Node) : String := n.outline.render 0

/-- A local as an outline. -/
def Local.outline (l : Local) : Outline := .item ("local $" ++ l.name ++ " " ++ l.slot.name) []

/-- A function as an outline: its signature, its locals besides the parameters, and its body. -/
def Function.outline (f : Function) : Outline :=
  let exported := if f.isExported then " (export \"" ++ f.name ++ "\")" else ""
  .item ("func $" ++ f.name ++ exported ++ paramsText f.paramSlots ++ resultText f.result)
    (f.locals.map Local.outline ++ [f.body.outline])

/-- An import as an outline. -/
def Import.outline (i : Import) : Outline :=
  .item ("import \"" ++ i.name ++ "\"" ++ paramsText i.params ++ resultText i.result) []

/-- The text of a module, one import or function after the other. -/
def Module.toText (m : Module) : String :=
  String.join
    ((m.imports.map Import.outline ++ m.functions.map Function.outline).map
      fun o => o.render 0 ++ "\n")

end Weir.Code
