import Weir.Code.Module
import Weir.Machine.Arithmetic

/-!
# Running code

`evalNode` runs a node and `Environment.call` a callee of a module. A run reads and writes the
locals of the current function, spends fuel on every call and every round of a loop, counts the
calls that are active, and lets host functions change the state of the outside world.

Loops and calls go on without bound, so both functions take a clock: it bounds the rounds of each
loop and the depth of the calls, and a run that needs more ends with `Exit.stalled`, which is not
an outcome of the program. A larger clock gives the same outcome to every run that did not stall.
-/

namespace Weir.Machine

open Weir.Code

/-- Greatest number of calls that may be active at once. -/
def maxDepth : Nat := 128

/-- What a run works on: the locals of the current function, the fuel that is left if it is
limited, the number of active calls, and the state of the outside world. -/
structure State (σ : Type) where
  locals : List Value
  fuel : Option Nat
  depth : Nat
  world : σ

/-- Ways in which a node can end other than by reaching its end: branching to a label, returning
from the function, trapping, or reaching the end of the clock. -/
inductive Exit where
  | branch (label : Label)
  | finish (value : Option Value)
  | trap (reason : Trap)
  | stalled
  deriving DecidableEq

/-- A step of a run. -/
abbrev Run (σ α : Type) : Type := EStateM Exit (State σ) α

/-- A host function: it sees its arguments and the outside world, and may yield a value. -/
abbrev Host (σ : Type) : Type := List Value → EStateM Trap σ (Option Value)

/-- What stays fixed during a run: the module and the hosts bound to its imports, by number. -/
structure Environment (σ : Type) where
  module : Module
  host? : Nat → Option (Host σ)

namespace Run

variable {σ α : Type}

/-- Traps. -/
def trap (reason : Trap) : Run σ α := throw (.trap reason)

/-- Goes on with a result, or traps. -/
def ofExcept : Except Trap α → Run σ α
  | .ok a => pure a
  | .error reason => trap reason

/-- The value of a node, which has to yield one. -/
def value (run : Run σ (Option Value)) : Run σ Value := do
  match ← run with
  | some v => pure v
  | none => trap .missingValue

/-- The truth value of a node. -/
def condition (run : Run σ (Option Value)) : Run σ Bool := do
  let v ← value run
  let a ← ofExcept v.toI32
  pure (a != 0)

/-- Spends one unit of fuel. -/
def spend : Run σ Unit := fun s =>
  match s.fuel with
  | none => .ok () s
  | some 0 => .error (.trap .outOfFuel) s
  | some (n + 1) => .ok () { s with fuel := some n }

/-- Reads a local. -/
def getLocal (index : Nat) : Run σ Value := fun s =>
  match s.locals[index]? with
  | some v => .ok v s
  | none => .error (.trap (.unknownLocal index)) s

/-- Writes a local; the value has to lie in the slot of the one it replaces. -/
def setLocal (index : Nat) (v : Value) : Run σ Unit := fun s =>
  match s.locals[index]? with
  | some old =>
    if old.slot = v.slot then .ok () { s with locals := s.locals.set index v }
    else .error (.trap (.typeMismatch old.slot v.slot)) s
  | none => .error (.trap (.unknownLocal index)) s

/-- Ends without a value when a run branches to the given label. -/
def catching (label : Label) (run : Run σ (Option Value)) : Run σ (Option Value) := fun s =>
  match run s with
  | .error (.branch target) s => if target = label then .ok none s else .error (.branch target) s
  | r => r

/-- Runs the body of a loop, again each time it branches to the label, for at most `clock` rounds.
-/
def repeating (label : Label) (body : Run σ (Option Value)) : Nat → Run σ (Option Value)
  | 0 => throw .stalled
  | clock + 1 => fun s =>
    match spend s with
    | .ok () s =>
      match body s with
      | .error (.branch target) s =>
        if target = label then repeating label body clock s else .error (.branch target) s
      | r => r
    | .error e s => .error e s

end Run

open Run

mutual

/-- Runs a node, given how calls are run. -/
def evalNode {σ : Type} (call : Nat → List Value → Run σ (Option Value)) (clock : Nat) :
    Node → Run σ (Option Value)
  | .nop => pure none
  | .unreachable => trap .unreachable
  | .block none children => evalAll call clock none children
  | .block (some label) children => catching label (evalAll call clock none children)
  | .loop label body => repeating label (evalNode call clock body) clock
  | .ifThen _ c t => do
    if ← condition (evalNode call clock c) then evalNode call clock t else pure none
  | .ifElse _ c t e => do
    if ← condition (evalNode call clock c) then evalNode call clock t
    else evalNode call clock e
  | .select c t e => do
    -- Both values come before the condition.
    let ifTrue ← value (evalNode call clock t)
    let ifFalse ← value (evalNode call clock e)
    let b ← condition (evalNode call clock c)
    pure (some (if b then ifTrue else ifFalse))
  | .br label => throw (.branch label)
  | .brIf label c => do
    if ← condition (evalNode call clock c) then throw (.branch label) else pure none
  | .brTable labels fallback index => do
    let v ← value (evalNode call clock index)
    let i ← ofExcept v.toI32
    -- The number is read without a sign; past the end of the table it leads to the fallback.
    throw (.branch (labels[i.toNat]?.getD fallback))
  | .ret => throw (.finish none)
  | .retValue e => do
    let v ← value (evalNode call clock e)
    throw (.finish (some v))
  | .drop e => do
    let _ ← evalNode call clock e
    pure none
  | .const v => pure (some v)
  | .localGet index _ => do
    let v ← getLocal index
    pure (some v)
  | .localSet index e => do
    let v ← value (evalNode call clock e)
    setLocal index v
    pure none
  | .localTee index _ e => do
    let v ← value (evalNode call clock e)
    setLocal index v
    pure (some v)
  | .unary op _ e => do
    let v ← value (evalNode call clock e)
    let r ← ofExcept (op.eval v)
    pure (some r)
  | .binary op _ l r => do
    let v ← value (evalNode call clock l)
    let w ← value (evalNode call clock r)
    let r ← ofExcept (op.eval v w)
    pure (some r)
  | .convert c e => do
    let v ← value (evalNode call clock e)
    let r ← ofExcept (c.eval v)
    pure (some r)
  | .call callee args _ => do
    let vs ← evalArgs call clock args
    call callee vs
termination_by structural n => n

/-- Runs nodes one after the other and yields what the last one yields, or what came before. -/
def evalAll {σ : Type} (call : Nat → List Value → Run σ (Option Value)) (clock : Nat)
    (last : Option Value) : List Node → Run σ (Option Value)
  | [] => pure last
  | n :: ns => do
    let v ← evalNode call clock n
    evalAll call clock v ns
termination_by structural ns => ns

/-- The values of nodes, from left to right. -/
def evalArgs {σ : Type} (call : Nat → List Value → Run σ (Option Value)) (clock : Nat) :
    List Node → Run σ (List Value)
  | [] => pure []
  | n :: ns => do
    let v ← value (evalNode call clock n)
    let vs ← evalArgs call clock ns
    pure (v :: vs)
termination_by structural ns => ns

end

/-- The first argument that does not lie in the slot of its parameter. -/
def findMismatch? : List Slot → List Value → Option Trap
  | p :: ps, v :: vs => if p = v.slot then findMismatch? ps vs else some (.typeMismatch p v.slot)
  | _, _ => none

/-- Runs the body of a function on its arguments, as one more active call. The locals besides the
parameters start at zero. -/
def runBody {σ : Type} (run : Node → Run σ (Option Value)) (f : Function) (args : List Value) :
    Run σ (Option Value) := fun s =>
  if s.depth = maxDepth then .error (.trap .callStackExhausted) s
  else
    match f.locals.mapM fun l => Value.zero? l.slot with
    | none => .error (.trap .missingValue) s
    | some zeros =>
      let outside (inner : State σ) : State σ :=
        { inner with locals := s.locals, depth := inner.depth - 1 }
      let finish (v : Option Value) (inner : State σ) : EStateM.Result Exit (State σ) _ :=
        -- A function without a result drops what its body leaves.
        if f.result = .none then .ok none (outside inner)
        else match v with
          | some v => .ok (some v) (outside inner)
          | none => .error (.trap .missingValue) (outside inner)
      match run f.body { s with locals := args ++ zeros, depth := s.depth + 1 } with
      | .ok v inner | .error (.finish v) inner => finish v inner
      -- Labels do not reach beyond a function.
      | .error (.branch label) inner => .error (.trap (.unboundLabel label)) (outside inner)
      | .error e inner => .error e (outside inner)

/-- Calls a host function. -/
def runHost {σ : Type} (host : Host σ) (args : List Value) : Run σ (Option Value) := fun s =>
  match host args s.world with
  | .ok v world => .ok v { s with world }
  | .error reason world => .error (.trap reason) { s with world }

namespace Environment

variable {σ : Type}

/-- Calls the callee with the given number, given how bodies are run. -/
def enter (env : Environment σ) (run : Node → Run σ (Option Value)) (id : Nat)
    (args : List Value) : Run σ (Option Value) := do
  spend
  match env.module.callee? id with
  | none => trap (.unknownFunction (toString id))
  | some callee =>
    if callee.params.length ≠ args.length then
      trap (.arityMismatch callee.name callee.params.length args.length)
    else match findMismatch? callee.params args with
      | some reason => trap reason
      | none => match callee with
        | .imported i => match env.host? id with
          | some host => runHost host args
          | none => trap (.missingHost i.name)
        | .defined f => runBody run f args

/-- Calls the callee with the given number. -/
def call (env : Environment σ) : Nat → Nat → List Value → Run σ (Option Value)
  | 0 => env.enter fun _ => throw .stalled
  | clock + 1 => env.enter (evalNode (env.call clock) clock)

/-- Calls the first function with the given name. -/
def invoke (env : Environment σ) (clock : Nat) (name : String) (args : List Value) :
    Run σ (Option Value) :=
  match env.module.findFunction? name with
  | none => trap (.unknownFunction name)
  | some id => env.call clock id args

end Environment

end Weir.Machine
