import Weir.Machine.Eval

/-!
# Sessions

A `Session` is a module with hosts bound to its imports, on which functions are invoked one after
the other; fuel and the state of the hosts carry over from one invocation to the next. The hosts
are `Script`s: they write every call down and answer from a list.
-/

namespace Weir.Machine

open Weir.Code

/-- A host function that writes its calls to the log under a name. It fails if it has a reason to,
else it answers from a list, with the last answer again and again. -/
structure Script where
  name : String
  failure : Option String
  answers : List (Option Value)
  deriving DecidableEq

namespace Script

/-- The next answer. -/
def answer (s : Script) : Option Value := s.answers.head?.join

/-- The script after an answer. -/
def advance (s : Script) : Script :=
  match s.answers with
  | _ :: second :: rest => { s with answers := second :: rest }
  | _ => s

/-- The line that a call is written down as. -/
def line (s : Script) (args : List Value) : String :=
  s.name ++ "(" ++ ", ".intercalate (args.map Value.toText) ++ ")\n"

/-- The host that a printing import gets: it answers with the zero of its result. -/
def printing (i : Import) : Script := ⟨i.name, none, [Value.zero? i.result]⟩

end Script

/-- The scripts bound to the imports of a module, by number, and the log they write to. -/
structure World where
  scripts : List (Option Script)
  log : String
  deriving DecidableEq

namespace World

/-- The script bound to an import. -/
def script? (w : World) (id : Nat) : Option Script := (w.scripts[id]?).join

/-- The host function that plays the script bound to an import. -/
def play (id : Nat) : Host World := fun args w =>
  match w.script? id with
  | none => .ok none w
  | some s =>
    let w := { w with log := w.log ++ s.line args }
    match s.failure with
    | some reason => .error (.host reason) w
    | none => .ok s.answer { w with scripts := w.scripts.set id (some s.advance) }

end World

/-- A module and the state in which its next invocation starts. -/
structure Session where
  module : Module
  state : State World

namespace Session

/-- A session without fuel limit and without hosts. -/
def ofModule (m : Module) : Session :=
  ⟨m, { locals := [], fuel := none, depth := 0, world := ⟨m.imports.map fun _ => none, ""⟩ }⟩

/-- Sets the fuel that is left. -/
def withFuel (s : Session) (n : Nat) : Session :=
  { s with state := { s.state with fuel := some n } }

/-- Empties the log. -/
def clearLog (s : Session) : Session :=
  { s with state := { s.state with world := { s.state.world with log := "" } } }

/-- Binds a script to the first import with the given name. -/
def register (s : Session) (name : String) (script : Script) : Except Trap Session :=
  match s.module.imports.findIdx? (·.name = name) with
  | none => .error (.unknownFunction name)
  | some id =>
    let world := { s.state.world with scripts := s.state.world.scripts.set id (some script) }
    .ok { s with state := { s.state with world } }

/-- Binds a printing script for every import to the first import of its name. -/
def bindPrinting (s : Session) : Except Trap Session :=
  s.module.imports.foldlM (fun s i => s.register i.name (.printing i)) s

/-- The module with the hosts that are bound now. -/
def environment (s : Session) : Environment World :=
  ⟨s.module, fun id => if (s.state.world.script? id).isSome then some (World.play id) else none⟩

/-- Invokes a function by name. Nothing is returned if the run stalls at the end of the clock. -/
def invoke? (s : Session) (clock : Nat) (name : String) (args : List Value) :
    Option (Except Trap (Option Value) × Session) :=
  match s.environment.invoke clock name args s.state with
  | .ok v state => some (.ok v, { s with state })
  | .error (.trap reason) state => some (.error reason, { s with state })
  | .error _ _ => none

end Session

end Weir.Machine
