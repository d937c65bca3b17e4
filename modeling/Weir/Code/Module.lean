import Weir.Code.Node

/-!
# Modules

A module is a list of imports and a list of functions. Both are numbered together, imports first,
and a call names its callee by that number. The locals of a function are numbered with its
parameters first.

* `Module.callee?_import` and `Module.callee?_function` say which number names what.
-/

namespace Weir.Code

/-- A named local. -/
structure Local where
  name : String
  slot : Slot
  deriving DecidableEq

/-- A function of a module. `locals` are the ones besides the parameters. -/
structure Function where
  name : String
  params : List Local
  result : Slot
  locals : List Local
  body : Node
  isExported : Bool

/-- A function that the host provides. -/
structure Import where
  name : String
  params : List Slot
  result : Slot
  deriving DecidableEq

/-- What a call can reach. -/
inductive Callee where
  | imported (import_ : Import)
  | defined (function : Function)

/-- A module. -/
structure Module where
  imports : List Import
  functions : List Function

namespace Function

/-- Number of locals, parameters included. -/
def localCount (f : Function) : Nat := f.params.length + f.locals.length

/-- The slots of the parameters. -/
def paramSlots (f : Function) : List Slot := f.params.map Local.slot

end Function

namespace Callee

/-- The name of a callee. -/
def name : Callee → String
  | imported i => i.name
  | defined f => f.name

/-- The slots of the parameters. -/
def params : Callee → List Slot
  | imported i => i.params
  | defined f => f.paramSlots

/-- The slot of the result. -/
def result : Callee → Slot
  | imported i => i.result
  | defined f => f.result

end Callee

namespace Module

/-- The callee with a given number. -/
def callee? (m : Module) (id : Nat) : Option Callee :=
  if id < m.imports.length then (m.imports[id]?).map .imported
  else (m.functions[id - m.imports.length]?).map .defined

/-- The number of the first function with a given name. -/
def findFunction? (m : Module) (name : String) : Option Nat :=
  (m.functions.findIdx? (·.name = name)).map (m.imports.length + ·)

theorem callee?_import {m : Module} {id : Nat} (h : id < m.imports.length) :
    m.callee? id = some (.imported m.imports[id]) := by
  simp [callee?, h]

theorem callee?_function (m : Module) (k : Nat) :
    m.callee? (m.imports.length + k) = (m.functions[k]?).map .defined := by
  have h : ¬ m.imports.length + k < m.imports.length := by omega
  simp [callee?, h]

end Module

end Weir.Code
