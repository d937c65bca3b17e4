import Weir.Machine.Session
import Weir.Proofs.SteadyRun

/-!
# Printing hosts

`Session.bindPrinting` goes through the imports of a module and binds a printing script to each. It
finds the import to bind by its name, while calls reach imports by number. An import gets the script
of its own if no other import has its name; else the first import of a name is left with the script
of the last one, and the others without any.

## Key results

- `bindPrinting_bound`: which script every import is left with
- `call_keeps_hosts`: runs keep the scripts, and lack a host only for a repeated name
- `call_import`: what a call of an import does
- `printing_answers`: printing hosts answer for every import whose name is not repeated
-/

namespace Weir.Code

/-- The import whose printing script import `id` is left with after those of the imports in `bound`
    were bound by name, one after the other. -/
def printerAmong? (imports bound : List Import) (id : Nat) : Option Import := do
  let i ← imports[id]?
  if imports.findIdx? (·.name = i.name) = some id then
    (bound.filter (·.name = i.name)).getLast?
  else none

namespace Module

/-- The import whose printing script import `id` is left with. -/
def printer? (m : Module) (id : Nat) : Option Import := printerAmong? m.imports m.imports id

/-- More than one import has the name. -/
def Repeats (m : Module) (name : String) : Prop := 1 < (m.imports.filter (·.name = name)).length

end Module

section

variable {imports bound : List Import} {i : Import} {id k : Nat}

/-- Before any host is bound, no import has one. -/
private theorem printerAmong?_nil : printerAmong? imports [] id = none := by
  cases h : imports[id]? <;> simp [printerAmong?, h]

/-- The first import of a name has the host that was bound last under it. -/
private theorem printerAmong?_of_first (h : imports[id]? = some i)
    (hfirst : imports.findIdx? (·.name = i.name) = some id) :
    printerAmong? imports bound id = (bound.filter (·.name = i.name)).getLast? := by
  simp [printerAmong?, h, hfirst]

/-- One more binding is to the first import of its name. -/
private theorem printerAmong?_concat (hfirst : imports.findIdx? (·.name = i.name) = some id) :
    printerAmong? imports (bound ++ [i]) k =
      if id = k then some i else printerAmong? imports bound k := by
  cases hk : imports[k]? with
  | none =>
    have hne : id ≠ k := by
      rintro rfl
      obtain ⟨hlt, -⟩ := List.findIdx?_eq_some_iff_getElem.1 hfirst
      exact absurd (List.getElem?_eq_none_iff.1 hk) (by omega)
    simp [printerAmong?, hk, hne]
  | some j =>
    by_cases hname : i.name = j.name
    · -- The import `k` has the name, so it is bound if it is the first one that has it.
      rw [hname] at hfirst
      by_cases heq : id = k
      · subst heq
        rw [printerAmong?_of_first hk hfirst, List.filter_append]
        simp [hname]
      · simp [printerAmong?, hk, hfirst, heq]
    · have hne : id ≠ k := by
        rintro rfl
        obtain ⟨hlt, hnamed, -⟩ := List.findIdx?_eq_some_iff_getElem.1 hfirst
        obtain ⟨_, hat⟩ := List.getElem?_eq_some_iff.1 hk
        rw [hat] at hnamed
        exact hname (of_decide_eq_true hnamed).symm
      simp [printerAmong?, hk, hne, List.filter_append, hname]

/-- A callee that is an import is one of those the module lists. -/
private theorem Module.import_of_callee? {m : Module} (h : m.callee? id = some (.imported i)) :
    m.imports[id]? = some i := by
  unfold Module.callee? at h
  split at h
  · obtain ⟨j, hj, heq⟩ := Option.map_eq_some_iff.1 h
    cases heq
    exact hj
  · obtain ⟨f, -, heq⟩ := Option.map_eq_some_iff.1 h
    cases heq

/-- An import whose name is not repeated is left with its own script. -/
private theorem Module.printer?_of_not_repeats {m : Module} (h : m.imports[id]? = some i)
    (hname : ¬ m.Repeats i.name) : m.printer? id = some i := by
  obtain ⟨hlt, hat⟩ := List.getElem?_eq_some_iff.1 h
  have hsplit : m.imports = m.imports.take id ++ i :: m.imports.drop (id + 1) := by
    rw [← hat, List.getElem_cons_drop, List.take_append_drop]
  have hfilter : m.imports.filter (·.name = i.name) =
      (m.imports.take id).filter (·.name = i.name) ++
        i :: (m.imports.drop (id + 1)).filter (·.name = i.name) := by
    conv => lhs; rw [hsplit]
    simp [List.filter_append]
  -- Neither before nor after the import there is room for another one of its name.
  unfold Repeats at hname
  rw [hfilter] at hname
  simp only [List.length_append, List.length_cons] at hname
  have hbefore : (m.imports.take id).filter (·.name = i.name) = [] :=
    List.eq_nil_of_length_eq_zero (by omega)
  have hafter : (m.imports.drop (id + 1)).filter (·.name = i.name) = [] :=
    List.eq_nil_of_length_eq_zero (by omega)
  have hfirst : m.imports.findIdx? (·.name = i.name) = some id := by
    refine List.findIdx?_eq_some_iff_getElem.2 ⟨hlt, by simp [hat], fun j hj => ?_⟩
    refine List.filter_eq_nil_iff.1 hbefore _ ?_
    exact List.mem_take_iff_getElem.2 ⟨j, by omega, rfl⟩
  rw [printer?, printerAmong?_of_first h hfirst, hfilter, hbefore, hafter]
  rfl

end

end Weir.Code

namespace Weir.Machine

open Weir.Code

/-! ## Binding -/

/-- The scripts of a world are those that imports are left with after the printing scripts of the
    imports in `bound` were bound by name. -/
structure World.Bound (w : World) (imports bound : List Import) : Prop where
  length : w.scripts.length = imports.length
  script : ∀ id, w.script? id = (printerAmong? imports bound id).map Script.printing

namespace Session

variable {m : Module} {s : Session} {i : Import}

/-- A script is bound to the first import of the given name. -/
private theorem register_of_first {name : String} {script : Script} {id : Nat}
    (h : s.module.imports.findIdx? (·.name = name) = some id) :
    s.register name script = .ok { s with
      state := { s.state with
        world := { s.state.world with
          scripts := s.state.world.scripts.set id (some script) } } } := by
  rw [register, h]

/-- Binding the printing script of one more import succeeds. -/
private theorem register_bound {bound : List Import}
    (h : s.state.world.Bound s.module.imports bound)
    (hi : i ∈ s.module.imports) :
    ∃ s', s.register i.name (.printing i) = .ok s' ∧ s'.module = s.module ∧
      s'.state.world.Bound s.module.imports (bound ++ [i]) := by
  obtain ⟨id, hfirst⟩ : ∃ id, s.module.imports.findIdx? (·.name = i.name) = some id :=
    Option.isSome_iff_exists.1 <| by
      rw [List.findIdx?_isSome]
      exact List.any_eq_true.2 ⟨i, hi, by simp⟩
  obtain ⟨hlt, -⟩ := List.findIdx?_eq_some_iff_getElem.1 hfirst
  refine ⟨_, register_of_first hfirst, rfl, ?_, fun k => ?_⟩
  · simpa using h.length
  · rw [printerAmong?_concat hfirst]
    have hk := h.script k
    unfold World.script? at hk ⊢
    rw [List.getElem?_set]
    -- The name is bound at one place, and every other place keeps its script.
    by_cases heq : id = k
    · rw [if_pos heq, if_pos (by rw [h.length]; exact hlt), if_pos heq]
      rfl
    · rw [if_neg heq, if_neg heq]
      exact hk

/-- Binding goes on to the end, and every import is left with the script that `Module.printer?`
    says. The induction is on the imports that are still to be bound. -/
theorem bindPrinting_bound (h : s.state.world.Bound s.module.imports []) :
    ∃ s', s.bindPrinting = .ok s' ∧ s'.module = s.module ∧
      s'.state.world.Bound s.module.imports s.module.imports := by
  -- The induction is over the imports yet to bind, behind those bound so far.
  suffices hgo : ∀ (rest bound : List Import) (s : Session),
      s.state.world.Bound s.module.imports bound → (∀ i ∈ rest, i ∈ s.module.imports) →
      ∃ s', rest.foldlM (fun s i => s.register i.name (.printing i)) s = .ok s' ∧
        s'.module = s.module ∧ s'.state.world.Bound s.module.imports (bound ++ rest) from
    hgo s.module.imports [] s h fun _ hi => hi
  intro rest
  induction rest with
  | nil => exact fun bound s h _ => ⟨s, rfl, rfl, by simpa using h⟩
  | cons i rest ih =>
    intro bound s h hall
    obtain ⟨hi, hrest⟩ := List.forall_mem_cons.1 hall
    obtain ⟨s₁, hs₁, hmodule, hbound⟩ := register_bound h hi
    rw [← hmodule] at hbound hrest
    obtain ⟨s₂, hs₂, hmodule₂, hbound₂⟩ := ih (bound ++ [i]) s₁ hbound hrest
    refine ⟨s₂, ?_, hmodule₂.trans hmodule, ?_⟩
    · rw [List.foldlM_cons, hs₁]
      exact hs₂
    · rw [← hmodule]
      simpa using hbound₂

/-- A session on a module before any host is bound, with the given fuel if it is limited. -/
def fresh (m : Module) (fuel : Option Nat) : Session :=
  fuel.elim (ofModule m) (ofModule m).withFuel

/-- A fresh session has no hosts, with or without a limit. -/
private theorem fresh_bound (m : Module) (fuel : Option Nat) :
    (fresh m fuel).state.world.Bound m.imports [] := by
  have hnone : World.Bound ⟨m.imports.map fun _ => none, ""⟩ m.imports [] := by
    refine ⟨by simp, fun id => ?_⟩
    rw [printerAmong?_nil]
    simp only [World.script?, List.getElem?_map]
    cases m.imports[id]? <;> rfl
  cases fuel with
  | none => exact hnone
  | some n => exact hnone

/-- Printing scripts can be bound to the imports of every module. -/
private theorem fresh_bindPrinting (m : Module) (fuel : Option Nat) :
    ∃ s, (fresh m fuel).bindPrinting = .ok s ∧ s.module = m ∧
      s.state.world.Bound m.imports m.imports := by
  cases fuel with
  | none => exact bindPrinting_bound (fresh_bound m none)
  | some n => exact bindPrinting_bound (fresh_bound m (some n))

end Session

/-! ## Calls -/

/-- A printing script writes the call down and answers, and is left as it was. -/
private theorem play_printing {w : World} {id : Nat} {i : Import} {args : List Value}
    (h : w.script? id = some (.printing i)) :
    World.play id args w =
      .ok (Value.zero? i.result) { w with log := w.log ++ (Script.printing i).line args } := by
  have hget : w.scripts[id]? = some (some (.printing i)) := Option.join_eq_some_iff.1 h
  obtain ⟨hlt, hat⟩ := List.getElem?_eq_some_iff.1 hget
  -- A printing script does not change by being played.
  have hset : w.scripts.set id (some (.printing i)) = w.scripts := by
    rw [← hat]
    exact List.set_getElem_self hlt
  have hadvance : (Script.printing i).advance = .printing i := rfl
  unfold World.play
  rw [h]
  dsimp only
  rw [hadvance, hset]
  rfl

section

variable {m : Module} {s : Session} {clock : Nat}

/-- The host of an import is its script, played in the world as it is. -/
private theorem environment_host? (h : s.state.world.Bound m.imports m.imports) (id : Nat) :
    s.environment.host? id = (m.printer? id).map fun _ => World.play id := by
  unfold Session.environment
  dsimp only
  rw [h.script id, Module.printer?]
  cases printerAmong? m.imports m.imports id <;> rfl

/-- What a call of an import does, whatever has happened since the scripts were bound: the script
    that the import is left with writes the call down and answers, and without one the call
    traps. -/
theorem call_import (hmodule : s.module = m) (hbound : s.state.world.Bound m.imports m.imports)
    {id : Nat} {i : Import} {args : List Value} {t t' : State World}
    (hi : m.imports[id]? = some i) (hargs : args.map Value.slot = i.params)
    (hscripts : t.world.scripts = s.state.world.scripts) (hspend : Run.spend t = .ok () t') :
    s.environment.call clock id args t = match m.printer? id with
      | some j => .ok (Value.zero? j.result) { t' with
          world := { t'.world with log := t'.world.log ++ (Script.printing j).line args } }
      | none => .error (.trap (.missingHost i.name)) t' := by
  have hcallee : s.environment.module.callee? id = some (.imported i) := by
    obtain ⟨hlt, hat⟩ := List.getElem?_eq_some_iff.1 hi
    rw [← hat]
    exact hmodule ▸ Module.callee?_import hlt
  -- Spending fuel does not touch the world.
  have hworld : t'.world = t.world := by
    have hkeeps : Keeps (fun u : State World => u.world = t.world) Run.spend (fun _ => True)
        (fun _ => True) := keeps_spend (fun _ _ hs _ => hs) trivial
    exact (hkeeps.of_ok rfl hspend).1
  have henter (run : Node → Run World (Option Value)) :=
    enter_callee run hcallee hargs hspend
  -- An import runs its host whatever the clock is.
  have hcall : s.environment.call clock id args t =
      (s.environment.host? id).elim (Run.trap (.missingHost i.name)) (runHost · args) t' := by
    cases clock with
    | zero => exact henter fun _ => throw .stalled
    | succ clock => exact henter (evalNode (s.environment.call clock) clock)
  rw [hcall, environment_host? hbound]
  cases hj : m.printer? id with
  | none => rfl
  | some j =>
    have hscript : t'.world.script? id = some (.printing j) := by
      have h := hbound.script id
      rw [World.script?, ← hscripts, ← hworld] at h
      rw [World.script?, h, ← Module.printer?, hj]
      rfl
    simp only [Option.map_some, Option.elim_some, runHost, play_printing hscript]

/-- A call keeps the scripts, and lacks a host only for an import that was left without one. -/
theorem call_keeps_hosts (hmodule : s.module = m)
    (hbound : s.state.world.Bound m.imports m.imports) (id : Nat) (args : List Value) :
    Keeps (fun t => t.world.scripts = s.state.world.scripts) (s.environment.call clock id args)
      (fun _ => True) fun e => ∀ name, e = .trap (.missingHost name) → m.Repeats name := by
  have hE : ∀ e : Exit, e.lacksHost = false →
      ∀ name, e = .trap (.missingHost name) → m.Repeats name := by
    rintro e he name rfl
    cases he
  -- What is left to look at in a call is the import it reaches, or the body that it runs.
  have henter {run : Node → Run World (Option Value)} (id : Nat) (args : List Value)
      (hrun : ∀ n, Keeps (fun t => t.world.scripts = s.state.world.scripts) (run n)
        (fun _ => True) fun e => ∀ name, e = .trap (.missingHost name) → m.Repeats name) :
      Keeps (fun t => t.world.scripts = s.state.world.scripts) (s.environment.enter run id args)
        (fun _ => True) fun e => ∀ name, e = .trap (.missingHost name) → m.Repeats name := by
    refine keeps_enter (keeps_spend (fun _ _ hs _ => hs) (hE _ rfl)) (fun _ => hE _ rfl)
      (fun _ _ _ => hE _ rfl) (fun c reason _ _ _ hreason => ?_) (fun i hi hnone => ?_)
      (fun i host hi hhost _ => ?_) (fun f _ _ => ?_)
    · obtain ⟨expected, found, rfl⟩ := findMismatch?_eq_some hreason
      exact hE _ rfl
    · -- An import without a host is not the only one of its name.
      rintro name heq
      cases heq
      refine Classical.byContradiction fun hname => ?_
      rw [environment_host? hbound,
        Module.printer?_of_not_repeats (Module.import_of_callee? (hmodule ▸ hi)) hname] at hnone
      cases hnone
    · intro t ht
      rw [environment_host? hbound] at hhost
      obtain ⟨j, hj, rfl⟩ := Option.map_eq_some_iff.1 hhost
      have hscript : t.world.script? id = some (.printing j) := by
        have h := hbound.script id
        rw [World.script?, ← ht] at h
        rw [World.script?, h, ← Module.printer?, hj]
        rfl
      simp only [runHost, play_printing hscript]
      exact ⟨ht, trivial⟩
    · exact keeps_runBody (hrun f.body) (fun _ _ hs _ => hs) (fun _ _ _ hs => hs)
        (fun _ => trivial) (fun _ _ _ => trivial) (fun _ _ => hE _ rfl) (fun _ _ he => he)
        (hE _ rfl) (hE _ rfl)
  induction clock generalizing id args with
  | zero => exact henter id args fun n => keeps_throw (hE _ rfl)
  | succ clock ih =>
    refine henter id args fun n => ?_
    exact keeps_node (.world fun w : World => w.scripts = s.state.world.scripts) hE ih n

/-- An invocation keeps the hosts, and misses one only for a name that repeats. -/
private theorem invoke_keeps_hosts (hmodule : s.module = m)
    (hbound : s.state.world.Bound m.imports m.imports) (name : String) (args : List Value) :
    Keeps (fun t => t.world.scripts = s.state.world.scripts)
      (s.environment.invoke clock name args) (fun _ => True)
      fun e => ∀ name, e = .trap (.missingHost name) → m.Repeats name := by
  unfold Environment.invoke
  cases s.environment.module.findFunction? name with
  | none => exact keeps_trap fun _ heq => by cases heq
  | some id => exact call_keeps_hosts hmodule hbound id args

end

/-! ## Sessions -/

/-- Sessions on a module to whose imports printing scripts were bound before anything else, whatever
    has been invoked since. -/
inductive Session.Printing (m : Module) : Session → Prop
  | bound {fuel : Option Nat} {s : Session} (h : (fresh m fuel).bindPrinting = .ok s) :
      Printing m s
  | refuelled {s : Session} (n : Nat) (h : Printing m s) : Printing m (s.withFuel n)
  | cleared {s : Session} (h : Printing m s) : Printing m s.clearLog
  | invoked {s s' : Session} {clock : Nat} {name : String} {args : List Value}
      {result : Except Trap (Option Value)} (h : Printing m s)
      (hrun : s.invoke? clock name args = some (result, s')) : Printing m s'

/-- The state that an invocation leaves, and the trap that it may have ended in. -/
private theorem Session.of_invoke? {s s' : Session} {clock : Nat} {name : String}
    {args : List Value}
    {result : Except Trap (Option Value)} (h : s.invoke? clock name args = some (result, s')) :
    s'.module = s.module ∧ s'.state = final (s.environment.invoke clock name args s.state) ∧
      ∀ reason, result = .error reason →
        s.environment.invoke clock name args s.state = .error (.trap reason) s'.state := by
  unfold Session.invoke? at h
  cases hrun : s.environment.invoke clock name args s.state with
  | ok v t =>
    rw [hrun] at h
    cases h
    exact ⟨rfl, rfl, fun reason heq => by cases heq⟩
  | error e t =>
    rw [hrun] at h
    cases e with
    | trap reason =>
      cases h
      exact ⟨rfl, rfl, fun reason' heq => by cases heq; rfl⟩
    | branch label => cases h
    | finish v => cases h
    | stalled => cases h

/-- However the session came about, its imports have the printing hosts. -/
private theorem Session.Printing.hosts {m : Module} {s : Session} (h : s.Printing m) :
    s.module = m ∧ s.state.world.Bound m.imports m.imports := by
  induction h with
  | @bound fuel s h =>
    obtain ⟨s', hs', hhosts⟩ := fresh_bindPrinting m fuel
    rw [h] at hs'
    cases hs'
    exact hhosts
  -- A new limit and a cleared log leave the scripts alone.
  | refuelled n h ih => exact ⟨ih.1, ih.2.length, ih.2.script⟩
  | cleared h ih => exact ⟨ih.1, ih.2.length, ih.2.script⟩
  | @invoked s s' clock name args result h hrun ih =>
    obtain ⟨hmodule, hstate, -⟩ := Session.of_invoke? hrun
    -- An invocation adds to the log and does not bind anything.
    have hscripts : s'.state.world.scripts = s.state.world.scripts := by
      rw [hstate]
      exact (invoke_keeps_hosts ih.1 ih.2 name args).final rfl
    refine ⟨hmodule.trans ih.1, ?_, fun id => ?_⟩
    · rw [hscripts]
      exact ih.2.length
    · rw [World.script?, hscripts]
      exact ih.2.script id

/-- Printing hosts answer for the imports of a module. Binding them succeeds, and after that, in
    every later invocation, a call of an import writes its arguments down and returns the zero of
    the import that `Module.printer?` says: of the called one itself, if its name is not repeated.
    Calls leave the hosts as they are, and only for a repeated name is there no host. -/
theorem printing_answers (m : Module) :
    (∀ fuel, ∃ s, (Session.fresh m fuel).bindPrinting = .ok s) ∧
    (∀ id i, m.imports[id]? = some i → ¬ m.Repeats i.name → m.printer? id = some i) ∧
    ∀ s : Session, s.Printing m →
      (∀ clock id i args t t', m.imports[id]? = some i → args.map Value.slot = i.params →
        t.world.scripts = s.state.world.scripts → Run.spend t = .ok () t' →
        s.environment.call clock id args t = match m.printer? id with
          | some j => .ok (Value.zero? j.result) { t' with
              world := { t'.world with log := t'.world.log ++ (Script.printing j).line args } }
          | none => .error (.trap (.missingHost i.name)) t') ∧
      (∀ clock id args, Keeps (fun t => t.world.scripts = s.state.world.scripts)
        (s.environment.call clock id args) (fun _ => True)
        fun e => ∀ name, e = .trap (.missingHost name) → m.Repeats name) ∧
      ∀ clock name args missing s',
        s.invoke? clock name args = some (.error (.missingHost missing), s') →
          m.Repeats missing := by
  refine ⟨fun fuel => ?_, fun _ _ => Module.printer?_of_not_repeats, fun s hs => ?_⟩
  · obtain ⟨s, hs, -⟩ := Session.fresh_bindPrinting m fuel
    exact ⟨s, hs⟩
  · obtain ⟨hmodule, hbound⟩ := hs.hosts
    refine ⟨fun _ _ _ _ _ _ => call_import hmodule hbound,
      fun _ id args => call_keeps_hosts hmodule hbound id args,
      fun clock name args missing s' hrun => ?_⟩
    obtain ⟨-, -, htrap⟩ := Session.of_invoke? hrun
    exact ((invoke_keeps_hosts hmodule hbound name args).of_error rfl (htrap _ rfl)).2 missing rfl

/-- A module with two hosts, whose function logs a number and returns the time. -/
def clocked : Module where
  imports := [⟨"log", [.i32], .none⟩, ⟨"now", [], .i64⟩]
  functions := [{
    name := "main"
    params := []
    result := .i64
    locals := []
    isExported := true
    body := .block none [.call 0 [.i32Const 7] .none, .call 1 [] .i64] }]

/-- The second import is called, and its own host answers with the zero of its type. -/
theorem clocked_answers :
    ∃ s, (Session.fresh clocked none).bindPrinting = .ok s ∧
      s.environment.call 1 1 [] s.state = .ok (some (.i64 0)) { s.state with
        world := { s.state.world with log := "now()\n" } } := by
  have hbound : (Session.fresh clocked none).bindPrinting = .ok _ := rfl
  refine ⟨_, hbound, ?_⟩
  obtain ⟨-, hown, hrest⟩ := printing_answers clocked
  obtain ⟨hcall, -, -⟩ := hrest _ (.bound hbound)
  have hprinter := hown 1 ⟨"now", [], .i64⟩ rfl (by unfold Module.Repeats; decide)
  have h := hcall 1 1 ⟨"now", [], .i64⟩ [] _ _ rfl rfl rfl rfl
  rw [hprinter] at h
  exact h

/-- A module with two hosts of one name and different results, and a function that calls each. -/
def doubled : Module where
  imports := [⟨"a", [], .i32⟩, ⟨"a", [], .i64⟩]
  functions := [
    { name := "f", params := [], result := .i32, locals := [], isExported := true
      body := .call 0 [] .i32 },
    { name := "g", params := [], result := .i64, locals := [], isExported := true
      body := .call 1 [] .i64 }]

/-- The first of two imports of one name answers with the zero of the last one, which itself has no
    host. -/
theorem doubled_misses :
    ∃ s s₁ s₂, (Session.fresh doubled none).bindPrinting = .ok s ∧
      s.invoke? 1 "f" [] = some (.ok (some (.i64 0)), s₁) ∧
      s₁.invoke? 1 "g" [] = some (.error (.missingHost "a"), s₂) :=
  ⟨_, _, _, rfl, rfl, rfl⟩

end Weir.Machine
