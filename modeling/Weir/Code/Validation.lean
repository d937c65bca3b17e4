import Weir.Code.Module

/-!
# Structural checks

A node is sound in a function when every branch goes to an enclosing block or loop, no label is
bound again while it is in scope, every local is declared, and every call reaches a callee with as
many parameters as it passes arguments. `Function.check` reports the first defect of one function
without looking at its calls, `Module.check` the first one of a module.
-/

namespace Weir.Code

/-- A structural defect. -/
inductive Defect where
  | unboundLabel (label : Label)
  | labelCollision (label : Label)
  | unknownLocal (index : Nat)
  | unknownFunction (callee : Nat)
  | arityMismatch (callee expected found : Nat)
  deriving DecidableEq

/-- The message for a defect. -/
def Defect.message : Defect → String
  | unboundLabel label =>
    "branch to `" ++ label.toText ++ "` is not enclosed by a block or loop binding it"
  | labelCollision label => "label `" ++ label.toText ++ "` is bound again while still in scope"
  | unknownLocal index => "local " ++ toString index ++ " is not declared"
  | unknownFunction callee => "call to unknown function " ++ toString callee
  | arityMismatch callee expected found =>
    "call to function " ++ toString callee ++ " passes " ++ toString found ++
      " arguments, expected " ++ toString expected

/-- What a node is checked against: the module whose callees its calls may reach, if calls are to
be checked, and the number of locals of its function. -/
structure Surroundings where
  module : Option Module
  localCount : Nat

namespace Surroundings

/-- Checks that a branch goes to one of the given labels. -/
def checkTarget (labels : List Label) (label : Label) : Except Defect Unit :=
  if label ∈ labels then .ok () else .error (.unboundLabel label)

/-- Checks that a label is not bound yet. -/
def checkBinding (labels : List Label) (label : Label) : Except Defect Unit :=
  if label ∈ labels then .error (.labelCollision label) else .ok ()

/-- Checks that a local is declared. -/
def checkLocal (s : Surroundings) (index : Nat) : Except Defect Unit :=
  if index < s.localCount then .ok () else .error (.unknownLocal index)

/-- Checks the callee of a call and the number of its arguments. -/
def checkCall (s : Surroundings) (callee found : Nat) : Except Defect Unit :=
  match s.module with
  | none => .ok ()
  | some m => match m.callee? callee with
    | none => .error (.unknownFunction callee)
    | some c =>
      if c.params.length = found then .ok ()
      else .error (.arityMismatch callee c.params.length found)

end Surroundings

mutual

/-- Checks a node inside the given labels. -/
def Node.check (s : Surroundings) (labels : List Label) : Node → Except Defect Unit
  | .nop | .unreachable | .const _ | .ret => .ok ()
  | .block none children => checkAll s labels children
  | .block (some label) children => do
    Surroundings.checkBinding labels label
    checkAll s (label :: labels) children
  | .loop label body => do
    Surroundings.checkBinding labels label
    body.check s (label :: labels)
  | .ifThen _ condition thenNode => do
    condition.check s labels
    thenNode.check s labels
  | .ifElse _ condition thenNode elseNode => do
    condition.check s labels
    thenNode.check s labels
    elseNode.check s labels
  | .select condition ifTrue ifFalse => do
    ifTrue.check s labels
    ifFalse.check s labels
    condition.check s labels
  | .br label => Surroundings.checkTarget labels label
  | .brIf label condition => do
    Surroundings.checkTarget labels label
    condition.check s labels
  | .brTable targets fallback index => do
    -- The fallback is checked like one more target after the others.
    (targets ++ [fallback]).forM (Surroundings.checkTarget labels)
    index.check s labels
  | .retValue value | .drop value | .unary _ _ value | .convert _ value => value.check s labels
  | .localGet index _ => s.checkLocal index
  | .localSet index value | .localTee index _ value => do
    s.checkLocal index
    value.check s labels
  | .binary _ _ left right => do
    left.check s labels
    right.check s labels
  | .call callee args _ => do
    s.checkCall callee args.length
    checkAll s labels args
termination_by structural n => n

/-- Checks nodes one after the other. -/
def checkAll (s : Surroundings) (labels : List Label) : List Node → Except Defect Unit
  | [] => .ok ()
  | n :: ns => do
    n.check s labels
    checkAll s labels ns
termination_by structural ns => ns

end

/-- Checks a function on its own; its calls are not resolved. -/
def Function.check (f : Function) : Except Defect Unit := f.body.check ⟨none, f.localCount⟩ []

/-- Checks every function of a module, with calls among them. -/
def Module.check (m : Module) : Except Defect Unit :=
  m.functions.forM fun f => f.body.check ⟨some m, f.localCount⟩ []

end Weir.Code
