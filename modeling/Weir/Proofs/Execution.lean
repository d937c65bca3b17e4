import Weir.Machine.Eval
import Weir.Proofs.LowerStep

/-!
# Direct execution of statements

`exec` runs statements as they stand in the source, without labels and branches: how a statement
ends is an `Outcome`, and loops and switches look at the outcomes of the statements in them.
Expressions are run through the code that they are compiled to, with the variables in scope and the
numbers of locals that lowering has there, so `exec` follows the states of lowering.

## Main definitions

- `Outcome`: how a statement ends
- `rounds`, `whileRound`, `doWhileRound`, `forRound`: loops, over the executions of their parts
- `choose`, `switchRun`: switches, over the executions of the bodies of their clauses
- `exec`, `execAll`: the executions of statements
-/

namespace Weir.Lowering

open Weir.Code (Node Slot Value)
open Weir.Machine (Run)
open Weir.Machine.Run (condition getLocal ofExcept setLocal value)
open Weir.Source (Clause Declarator Expr Span Stmt Ty)

/-- How a statement ends that does not trap. -/
inductive Outcome where
  | normal
  | broke
  | continued
  | returned (value : Option Value)
  deriving DecidableEq

/-- A step that computes something succeeds. -/
theorem exists_ok_of_run' {ε ρ α : Type} {x : EStateM ε ρ α} {s : ρ} {a : α}
    (h : x.run' s = some a) : ∃ s', x s = .ok a s' := by
  unfold EStateM.run' EStateM.run at h
  cases hx : x s with
  | ok b s' =>
    rw [hx] at h
    exact ⟨s', by rw [Option.some.inj h]⟩
  | error e s' =>
    rw [hx] at h
    cases h

/-- The state that a step of lowering leaves, whether or not it fails. -/
def Lower.after {α : Type} (step : Lower α) (st : State) : State :=
  match step st with
  | .ok _ st' | .error _ st' => st'

/-- The state after a step that succeeds is the one that it leaves. -/
theorem Lower.after_of_ok {α : Type} {step : Lower α} {a : α} {st st' : State}
    (h : step st = .ok a st') :
    step.after st = st' := by
  unfold Lower.after
  rw [h]

section

variable {σ : Type}

/-- Goes on with the rest where the first part ends normally. -/
def andThen (first rest : Run σ Outcome) : Run σ Outcome := do
  match ← first with
  | .normal => rest
  | o => pure o

/-- Runs one after the other, as long as they end normally. -/
def fallThrough : List (Run σ Outcome) → Run σ Outcome
  | [] => pure .normal
  | body :: bodies => andThen body (fallThrough bodies)

/-! ## Loops -/

/-- Repeats a round of a loop until one breaks or returns, for at most `clock` rounds. -/
def rounds (round : Run σ Outcome) : Nat → Run σ Outcome
  | 0 => throw .stalled
  | clock + 1 => do
    match ← round with
    | .normal | .continued => rounds round clock
    | .broke => pure .normal
    | .returned v => pure (.returned v)

/-- A round of a `while` loop: a test that fails ends the loop. -/
def whileRound (test : Run σ Bool) (body : Run σ Outcome) : Run σ Outcome := do
  if ← test then body else pure .broke

/-- Goes on with the rest of a round after the body, also where the body continues. -/
def bodyThen (body rest : Run σ Outcome) : Run σ Outcome := do
  match ← body with
  | .normal | .continued => rest
  | o => pure o

/-- A round of a `do` loop: the test follows the body. -/
def doWhileRound (test : Run σ Bool) (body : Run σ Outcome) : Run σ Outcome :=
  bodyThen body do
    if ← test then pure .normal else pure .broke

/-- A round of a `for` loop: the update follows the body. -/
def forRound (test : Run σ Bool) (update : Run σ Unit) (body : Run σ Outcome) :
    Run σ Outcome := do
  if ← test then
    bodyThen body do
      update
      pure .normal
  else pure .broke

/-- The test of a `for` loop, which may be missing. -/
def testRun (run : Node → Run σ (Option Value)) : Option Node → Run σ Bool
  | none => pure true
  | some c => condition (run c)

/-- The update of a `for` loop, which may be missing. -/
def updateRun (run : Node → Run σ (Option Value)) : Option Node → Run σ Unit
  | none => pure ()
  | some u => do
    let _ ← run u

/-! ## Switches -/

/-- The number of the first clause whose guard equals a local. All guards are evaluated, the last
    one first. -/
def choose (run : Node → Run σ (Option Value)) (index : Nat) :
    List (Option Node) → Run σ (Option Nat)
  | [] => pure none
  | none :: tests => do
    let rest ← choose run index tests
    pure (rest.map (· + 1))
  | some guard :: tests => do
    let rest ← choose run index tests
    let v ← getLocal index
    let w ← value (run guard)
    let r ← ofExcept (Code.BinaryOp.eq.eval v w)
    let equal ← condition (pure (some r))
    pure (if equal then some 0 else rest.map (· + 1))

/-- Ends normally where the body breaks. -/
def breakable (body : Run σ Outcome) : Run σ Outcome := do
  match ← body with
  | .broke => pure .normal
  | o => pure o

/-- Runs the bodies of a switch from the chosen clause on, or from the default clause if none is
    chosen. A break ends the switch. -/
def switchRun (choice : Run σ (Option Nat)) (default? : Option Nat)
    (bodies : List (Run σ Outcome)) : Run σ Outcome := do
  match (← choice).or default? with
  | none => pure .normal
  | some k => breakable (fallThrough (bodies.drop k))

/-- The guards of clauses as they are compiled; a default clause has none. -/
def clauseTests (fc : FunctionContext) (compared : Ty) : List Clause → State → List (Option Node)
  | [], _ => []
  | .mk test body _ :: clauses, st =>
    test.map (fun e => (compileGuard (fc.context st) compared e).value) ::
      clauseTests fc compared clauses ((lowerAll fc body).after st)

/-! ## Statements -/

variable (fc : FunctionContext) (run : Node → Run σ (Option Value)) (clock : Nat)

/-- Gives the variables of a declaration their initial values. -/
def execDeclarators (isConst : Bool) : List Declarator → State → Run σ Unit
  | [], _ => pure ()
  | d :: ds, st => do
    let (initial, t) := (compileInitial (fc.context st) d (declaredType? d)).value
    match initial, Value.zero? (t.slot fc.settings.width) with
    | some node, _ =>
      let v ← value (run node)
      setLocal st.locals.length v
    | none, some zero => setLocal st.locals.length zero
    | none, none => pure ()
    execDeclarators isConst ds ((lowerDeclarator fc isConst d).after st)

mutual

/-- Executes a statement, given how code without control is run. -/
def exec : Stmt → State → Run σ Outcome
  | .exprStmt _ e, st => do
    let _ ← run (compileDiscarded (fc.context st) e).value
    pure .normal
  | .varDecl _ kind ds, st => do
    execDeclarators fc run (kind = .constVar) ds st
    pure .normal
  | .returnStmt _ none, _ => pure (.returned none)
  | .returnStmt _ (some e), st => do
    let v ← value (run (compileReturned (fc.context st) e fc.result).value)
    pure (.returned (some v))
  -- The other branch is lowered after the first one, whichever of them is executed.
  | .ifStmt _ c t e, st => do
    if ← condition (run (compileCondition (fc.context st) c).value) then exec t st
    else execOption e ((lower fc t).after st)
  | .forStmt _ init c u body, st =>
    -- The test and the update are compiled in the scope that the body has left.
    let inner := ((lowerOption fc init).after st.opened).entered .loop
    let ctx := fc.context ((lowerOption fc body).after inner)
    let test := testRun run (c.map fun e => (compileCondition ctx e).value)
    let update := updateRun run (u.map fun e => (compileDiscarded ctx e).value)
    andThen (execOption init st.opened)
      (rounds (forRound test update (execOption body inner)) clock)
  | .whileStmt _ c body, st =>
    let ctx := fc.context ((lowerOption fc body).after (st.entered .loop))
    let test := condition (run (compileCondition ctx c).value)
    rounds (whileRound test (execOption body (st.entered .loop))) clock
  | .doWhile _ body c, st =>
    let ctx := fc.context ((lower fc body).after (st.entered .loop))
    let test := condition (run (compileCondition ctx c).value)
    rounds (doWhileRound test (exec body (st.entered .loop))) clock
  | .block _ ss, st => execAll ss st.opened
  | .breakStmt _, _ => pure .broke
  | .continueStmt _, _ => pure .continued
  | .switchStmt _ d [], st => do
    let _ ← run (compileDropped (fc.context st) d).value
    pure .normal
  | .switchStmt _ d clauses, st => do
    let (discriminant, compared) := (compileDiscriminant (fc.context st) d).value
    let tests := clauseTests fc compared clauses (st.switched fc d)
    let v ← value (run discriminant)
    setLocal st.locals.length v
    switchRun (choose run st.locals.length tests) (tests.findIdx? Option.isNone)
      (execBodies clauses (st.switched fc d))
  | .empty _, _ => pure .normal
termination_by structural s => s

/-- Executes a statement that may be missing. -/
def execOption : Option Stmt → State → Run σ Outcome
  | none, _ => pure .normal
  | some s, st => exec s st
termination_by structural s => s

/-- Executes statements in order, as long as they end normally. -/
def execAll : List Stmt → State → Run σ Outcome
  | [], _ => pure .normal
  | s :: ss, st => andThen (exec s st) (execAll ss ((lower fc s).after st))
termination_by structural ss => ss

/-- The executions of the bodies of clauses. -/
def execBodies : List Clause → State → List (Run σ Outcome)
  | [], _ => []
  | .mk _ body _ :: clauses, st =>
    execAll body st :: execBodies clauses ((lowerAll fc body).after st)
termination_by structural clauses => clauses

end

end

end Weir.Lowering
