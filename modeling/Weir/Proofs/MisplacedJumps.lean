import Mathlib.Algebra.Group.Nat.Defs
import Weir.Lowering.Program
import Weir.Proofs.LowerStep

/-!
# Misplaced jumps

A `break` that stands in no loop and in no switch, and a `continue` that stands in no loop, have
nowhere to go. `strays` lists these jumps of a program in the order of the text, from the text
alone. Lowering looks for the target of a jump in its stack of labels instead, and the two agree:
it fails exactly on programs with a misplaced jump, and its error names the first of them.

The stack never gets out of step on the way. The other errors are left for programs that are too
large: with too many loops and switches in one function, or too many clauses in one switch.

## Key results

- `lower_resolvesJumps`, `lowerAll_resolvesJumps`: how lowering a statement ends, and what it
  leaves on the stack of labels
- `lowerProgram_eq_error_iff`: programs are refused for their first misplaced jump
-/

/-! ## Jumps in the source -/

namespace Weir.Source

/-- A statement that jumps out of a construct around it. -/
inductive Jump where
  | breakJump
  | continueJump
  deriving DecidableEq, Repr

mutual

/-- The misplaced jumps of a statement in order, given whether around it there is something to
    break and something to continue. -/
def Stmt.strays (canBreak canContinue : Bool) : Stmt → List Jump
  | .ifStmt _ _ t e => t.strays canBreak canContinue ++ straysOption canBreak canContinue e
  -- The first part of a `for` loop still stands outside of the loop.
  | .forStmt _ init _ _ body =>
    straysOption canBreak canContinue init ++ straysOption true true body
  | .whileStmt _ _ body => straysOption true true body
  | .doWhile _ body _ => body.strays true true
  | .block _ ss => straysAll canBreak canContinue ss
  | .breakStmt _ => if canBreak then [] else [.breakJump]
  | .continueStmt _ => if canContinue then [] else [.continueJump]
  | .switchStmt _ _ clauses => straysClauses canContinue clauses
  | .exprStmt .. | .varDecl .. | .returnStmt .. | .empty _ => []
termination_by structural s => s

/-- The misplaced jumps of a statement that may be missing. -/
def straysOption (canBreak canContinue : Bool) : Option Stmt → List Jump
  | none => []
  | some s => s.strays canBreak canContinue
termination_by structural s => s

/-- The misplaced jumps of statements. -/
def straysAll (canBreak canContinue : Bool) : List Stmt → List Jump
  | [] => []
  | s :: ss => s.strays canBreak canContinue ++ straysAll canBreak canContinue ss
termination_by structural ss => ss

/-- The misplaced jumps of the clauses of a switch, where there always is something to break. -/
def straysClauses (canContinue : Bool) : List Clause → List Jump
  | [] => []
  | .mk _ body _ :: clauses => straysAll true canContinue body ++ straysClauses canContinue clauses
termination_by structural clauses => clauses

end

mutual

/-- The number of loops and switches in a statement. A switch without clauses is none: there is
    nothing in it to jump out of. -/
def Stmt.scopeCount : Stmt → Nat
  | .ifStmt _ _ t e => t.scopeCount + scopeCountOption e
  | .forStmt _ init _ _ body => scopeCountOption init + (scopeCountOption body + 1)
  | .whileStmt _ _ body => scopeCountOption body + 1
  | .doWhile _ body _ => body.scopeCount + 1
  | .block _ ss => scopeCountAll ss
  | .switchStmt _ _ [] => 0
  | .switchStmt _ _ (clause :: clauses) => scopeCountClauses (clause :: clauses) + 1
  | .exprStmt .. | .varDecl .. | .returnStmt .. | .breakStmt _ | .continueStmt _ | .empty _ => 0
termination_by structural s => s

/-- The number of loops and switches in a statement that may be missing. -/
def scopeCountOption : Option Stmt → Nat
  | none => 0
  | some s => s.scopeCount
termination_by structural s => s

/-- The number of loops and switches in statements. -/
def scopeCountAll : List Stmt → Nat
  | [] => 0
  | s :: ss => s.scopeCount + scopeCountAll ss
termination_by structural ss => ss

/-- The number of loops and switches in the clauses of a switch. -/
def scopeCountClauses : List Clause → Nat
  | [] => 0
  | .mk _ body _ :: clauses => scopeCountAll body + scopeCountClauses clauses
termination_by structural clauses => clauses

end

/-- The number of clauses that have a guard. -/
def guardCount : List Clause → Nat
  | [] => 0
  | .mk test _ _ :: clauses => (if test.isSome then 1 else 0) + guardCount clauses

mutual

/-- The greatest number of clauses with a guard in one switch of a statement. -/
def Stmt.tableSize : Stmt → Nat
  | .ifStmt _ _ t e => max t.tableSize (tableSizeOption e)
  | .forStmt _ init _ _ body => max (tableSizeOption init) (tableSizeOption body)
  | .whileStmt _ _ body => tableSizeOption body
  | .doWhile _ body _ => body.tableSize
  | .block _ ss => tableSizeAll ss
  | .switchStmt _ _ clauses => max (guardCount clauses) (tableSizeClauses clauses)
  | .exprStmt .. | .varDecl .. | .returnStmt .. | .breakStmt _ | .continueStmt _ | .empty _ => 0
termination_by structural s => s

/-- The greatest number of clauses with a guard in one switch of a statement that may be missing. -/
def tableSizeOption : Option Stmt → Nat
  | none => 0
  | some s => s.tableSize
termination_by structural s => s

/-- The greatest number of clauses with a guard in one switch of statements. -/
def tableSizeAll : List Stmt → Nat
  | [] => 0
  | s :: ss => max s.tableSize (tableSizeAll ss)
termination_by structural ss => ss

/-- The greatest number of clauses with a guard in one switch inside of clauses. -/
def tableSizeClauses : List Clause → Nat
  | [] => 0
  | .mk _ body _ :: clauses => max (tableSizeAll body) (tableSizeClauses clauses)
termination_by structural clauses => clauses

end

/-- The misplaced jumps of a function. -/
def Function.strays (f : Function) : List Jump := straysAll false false f.body

/-- The misplaced jumps of a program, function after function. -/
def Program.strays (p : Program) : List Jump := p.functions.flatMap Function.strays

end Weir.Source

namespace Weir.Lowering

open Weir.Code (Node Slot)
open Weir.Source (Clause Declarator Expr Jump Span Stmt Ty straysAll straysClauses straysOption
  guardCount scopeCountAll scopeCountClauses scopeCountOption tableSizeAll tableSizeClauses
  tableSizeOption)

/-- What is said of a misplaced jump. -/
def jumpError : Jump → Error
  | .breakJump => .breakOutsideScope
  | .continueJump => .continueOutsideLoop

/-! ## The stack of labels -/

namespace LabelStack

/-- Whether a `break` has a target. -/
def canBreak (labels : LabelStack) : Bool := !labels.scopes.isEmpty

/-- Whether a `continue` has a target. -/
def canContinue (labels : LabelStack) : Bool := labels.scopes.any (·.kind = .loop)

/-- The stack after a number of scopes were opened and closed again. -/
def used (labels : LabelStack) (count : Nat) : LabelStack :=
  { labels with next := labels.next + count }

/-- The stack inside a new scope. -/
def pushed (labels : LabelStack) (kind : ScopeKind) : LabelStack :=
  ⟨⟨labels.next, kind⟩ :: labels.scopes, labels.next + 1⟩

/-- There are numbers left for so many scopes: those of the open scopes are used up, and the limit
    is not reached. -/
structure Room (labels : LabelStack) (count : Nat) : Prop where
  older : ∀ s ∈ labels.scopes, s.id < labels.next
  next : labels.next + count ≤ limit

variable {labels : LabelStack} {kind : ScopeKind} {m n : Nat}

private theorem used_zero (labels : LabelStack) : labels.used 0 = labels := rfl

private theorem used_used (labels : LabelStack) (m n : Nat) :
    (labels.used m).used n = labels.used (m + n) := by
  simp [used, Nat.add_assoc]

/-- A `continue` looks past an open switch. -/
private theorem canContinue_pushed_switch :
    (labels.pushed .switch).canContinue = labels.canContinue := by
  simp [pushed, canContinue]

/-- Room for two parts is room for the first of them. -/
private theorem Room.first (h : labels.Room (m + n)) : labels.Room m := by
  have hnext := h.next
  exact ⟨h.older, by omega⟩

/-- When the ids of the first part are taken, there is room for the second. -/
private theorem Room.rest (h : labels.Room (m + n)) : (labels.used m).Room n := by
  have hnext := h.next
  refine ⟨fun s hs => ?_, ?_⟩
  · have hlt := h.older s hs
    show s.id < labels.next + m
    omega
  · show labels.next + m + n ≤ limit
    omega

/-- A scope takes one id, and the others are left for what stands inside of it. -/
private theorem Room.pushed (h : labels.Room (n + 1)) : (labels.pushed kind).Room n := by
  have hnext := h.next
  refine ⟨fun s hs => ?_, ?_⟩
  · show s.id < labels.next + 1
    rcases List.mem_cons.1 hs with rfl | hmem
    · exact Nat.lt_succ_self _
    · have hlt := h.older s hmem
      omega
  · show labels.next + 1 + n ≤ limit
    omega

/-- Where there is a number left, a scope can be opened. -/
private theorem Room.enter (h : labels.Room (n + 1)) (kind : ScopeKind) :
    labels.enter kind = (.ok ⟨labels.next, kind⟩, labels.pushed kind) := by
  have hnext := h.next
  have hlimit : labels.next < limit := by omega
  rw [enter_of_older h.older, if_pos hlimit]
  rfl

/-- A scope is closed by whoever opened it. -/
private theorem leave_pushed (labels : LabelStack) (kind : ScopeKind) (n : Nat) :
    ((labels.pushed kind).used n).leave ⟨labels.next, kind⟩ = (.ok (), labels.used (n + 1)) := by
  unfold leave pushed used
  dsimp only
  rw [if_pos rfl, Nat.add_assoc, Nat.add_comm 1 n]

end LabelStack

/-! ## Steps -/

/-- How a step ends that starts with the given stack of labels, lowers code with the given
    misplaced jumps and opens so many scopes: it fails for the first misplaced jump, and without one
    it succeeds and has closed all scopes again. -/
def Lower.ResolvesJumps {α : Type} (x : Lower α) (labels : LabelStack) (strays : List Jump)
    (count : Nat) : Prop :=
  ∀ st : State, st.labels = labels → match x st with
    | .ok _ st' => strays = [] ∧ st'.labels = labels.used count
    | .error e _ => strays.head?.map jumpError = some e

namespace Lower.ResolvesJumps

variable {α β : Type} {labels : LabelStack} {strays strays' : List Jump} {m n : Nat}

/-- A step that always succeeds and leaves the labels alone. -/
private theorem of_ok {x : Lower α} (h : ∀ st, ∃ a st', x st = .ok a st' ∧ st'.labels = st.labels) :
    x.ResolvesJumps labels [] 0 := by
  intro st hst
  obtain ⟨a, st', hx, hlabels⟩ := h st
  rw [hx]
  exact ⟨rfl, hlabels.trans hst⟩

private theorem pure (a : α) : (Pure.pure a : Lower α).ResolvesJumps labels [] 0 :=
  of_ok fun st => ⟨a, st, rfl, rfl⟩

private theorem compiling (fc : FunctionContext) (f : Context → Reported α) :
    (Lower.compiling fc f).ResolvesJumps labels [] 0 :=
  of_ok fun _ => ⟨_, _, rfl, rfl⟩

/-- A report is noted, and lowering goes on with the same labels. -/
theorem report (problem : Problem) (span : Span) :
    (Lower.report problem span).ResolvesJumps labels [] 0 :=
  of_ok fun _ => ⟨_, _, rfl, rfl⟩

theorem declare (name : String) (slot : Slot) :
    (Lower.declare name slot).ResolvesJumps labels [] 0 :=
  of_ok fun _ => ⟨_, _, rfl, rfl⟩

/-- One step after the other. What is known of the second one may depend on what the first one
    has yielded. -/
theorem bind {x : Lower α} {f : α → Lower β} (hx : x.ResolvesJumps labels strays m)
    (hf : ∀ a, (∃ st st', x st = .ok a st') →
      (f a).ResolvesJumps (labels.used m) strays' n) :
    (x >>= f).ResolvesJumps labels (strays ++ strays') (m + n) := by
  intro st hst
  have hfirst := hx st hst
  simp only [Bind.bind, EStateM.bind]
  cases hrun : x st with
  | error e st₁ =>
    rw [hrun] at hfirst
    dsimp only at hfirst ⊢
    -- There is a first misplaced jump in the first step, so the second one does not matter.
    cases strays with
    | nil => cases hfirst
    | cons jump jumps => exact hfirst
  | ok a st₁ =>
    rw [hrun] at hfirst
    obtain ⟨rfl, hlabels⟩ := hfirst
    have hsecond := hf a ⟨st, st₁, hrun⟩ st₁ hlabels
    rwa [LabelStack.used_used] at hsecond

/-- A step before one that always succeeds and leaves the labels alone. -/
private theorem bind_quiet {x : Lower α} {f : α → Lower β} (hx : x.ResolvesJumps labels strays m)
    (hf : ∀ a, (∃ st st', x st = .ok a st') → (f a).ResolvesJumps (labels.used m) [] 0) :
    (x >>= f).ResolvesJumps labels strays m := by
  have hbind := hx.bind hf
  rwa [List.append_nil, Nat.add_zero] at hbind

/-- A step after one that always succeeds and leaves the labels alone. -/
private theorem quiet_bind {x : Lower α} {f : α → Lower β} (hx : x.ResolvesJumps labels [] 0)
    (hf : ∀ a, (f a).ResolvesJumps labels strays n) :
    (x >>= f).ResolvesJumps labels strays n := by
  have hbind := hx.bind (fun a _ => by rw [LabelStack.used_zero]; exact hf a)
  rwa [List.nil_append, Nat.zero_add] at hbind

/-- A scope of variables has the jumps and the ids of what runs in it. -/
private theorem withVariables {run : Lower α} (h : run.ResolvesJumps labels strays n) :
    (Lower.withVariables run).ResolvesJumps labels strays n := by
  intro st hst
  have hrun := h { st with bindings := [] :: st.bindings } hst
  unfold Lower.withVariables
  dsimp only
  -- Closing the scope of variables does not touch the labels.
  cases hok : run { st with bindings := [] :: st.bindings } with
  | ok a st₁ =>
    rw [hok] at hrun
    exact hrun
  | error e st₁ =>
    rw [hok] at hrun
    exact hrun

/-- The scope that is opened around a step is closed again, and with the number that it got. -/
private theorem withLabels {kind : ScopeKind} {run : LabelScope → Lower α}
    (hroom : labels.Room (n + 1))
    (h : (run ⟨labels.next, kind⟩).ResolvesJumps (labels.pushed kind) strays n) :
    (Lower.withLabels kind run).ResolvesJumps labels strays (n + 1) := by
  intro st hst
  have henter : st.labels.enter kind = (.ok ⟨labels.next, kind⟩, labels.pushed kind) := by
    rw [hst]
    exact hroom.enter kind
  have hrun := h { st with labels := labels.pushed kind } rfl
  unfold Lower.withLabels
  rw [henter]
  dsimp only
  -- An error inside is the error outside, and success has put the stack back as it was.
  cases hok : run ⟨labels.next, kind⟩ { st with labels := labels.pushed kind } with
  | error e st₁ =>
    rw [hok] at hrun
    exact hrun
  | ok a st₁ =>
    rw [hok] at hrun
    obtain ⟨hstrays, hlabels⟩ := hrun
    dsimp only
    rw [hlabels, LabelStack.leave_pushed]
    exact ⟨hstrays, rfl⟩

end Lower.ResolvesJumps

/-! ## Statements without statements in them -/

section

variable {fc : FunctionContext} {labels : LabelStack}

/-- A `return` is no jump to a label, reported or not. -/
private theorem lowerReturn_resolvesJumps (value : Option Expr) (span : Span) :
    (lowerReturn fc value span).ResolvesJumps labels [] 0 := by
  unfold lowerReturn
  cases value with
  | some e =>
    by_cases hvoid : fc.result.isVoid
    · simp only [hvoid, if_true]
      exact .quiet_bind (.report _ _) fun _ => .pure _
    · simp only [hvoid]
      exact .quiet_bind (.compiling _ _) fun _ => .pure _
  | none =>
    by_cases hvoid : fc.result.isVoid
    · simp only [hvoid, if_true]
      exact .pure _
    · simp only [hvoid]
      exact .quiet_bind (.report _ _) fun _ => .pure _

/-- Binding a variable never fails, taken name or not. -/
private theorem bindVariable_resolvesJumps (name : String) (v : Variable) (span : Span) :
    (Lower.bindVariable name v span).ResolvesJumps labels [] 0 := by
  refine .of_ok fun st => ?_
  -- Whether the name is taken decides what is reported, and nothing else.
  have hrun : Lower.bindVariable name v span st =
      (if st.bindings.isBoundHere name then Lower.report (.duplicateVariable name) span
        else pure ()) (st.bound name v) := rfl
  by_cases hbound : st.bindings.isBoundHere name
  · rw [if_pos hbound] at hrun
    exact ⟨(), (st.bound name v).noting [⟨.duplicateVariable name, span⟩], hrun, rfl⟩
  · rw [if_neg hbound] at hrun
    exact ⟨(), st.bound name v, hrun, rfl⟩

/-- A declarator succeeds whatever is declared. -/
private theorem lowerDeclarator_resolvesJumps (isConst : Bool) (d : Declarator) :
    (lowerDeclarator fc isConst d).ResolvesJumps labels [] 0 := by
  have hdeclare : (declareVariable fc isConst d).ResolvesJumps labels [] 0 := by
    refine .quiet_bind (.compiling _ _) fun r => ?_
    refine .quiet_bind (.declare _ _) fun index => ?_
    refine .quiet_bind (bindVariable_resolvesJumps _ _ _) fun _ => ?_
    split
    · exact .pure _
    · exact .pure _
    · exact .pure _
  -- A variable declared `void` is reported first.
  rw [lowerDeclarator_eq]
  split
  · exact .quiet_bind (.report _ _) fun _ => hdeclare
  · exact hdeclare

/-- No declaration has a jump in it. -/
private theorem lowerDeclarators_resolvesJumps (isConst : Bool) (ds : List Declarator) :
    (lowerDeclarators fc isConst ds).ResolvesJumps labels [] 0 := by
  induction ds with
  | nil => exact .pure _
  | cons d ds ih =>
    refine .quiet_bind (lowerDeclarator_resolvesJumps isConst d) fun first => ?_
    exact .quiet_bind ih fun rest => .pure _

/-- The test of a clause succeeds, a second default too. -/
private theorem lowerTest_resolvesJumps (scope : LabelScope) (compared : Ty) (ordinal : Nat)
    (hasDefault : Bool) (test : Option Expr) (span : Span) :
    (lowerTest fc scope compared ordinal hasDefault test span).ResolvesJumps labels [] 0 := by
  unfold lowerTest
  cases test with
  | some e => exact .quiet_bind (.compiling _ _) fun _ => .pure _
  | none =>
    cases hasDefault with
    | true => exact .quiet_bind (.report _ _) fun _ => .pure _
    | false => exact .pure _

/-- A `break` is misplaced where no scope is open. -/
private theorem lower_break_resolvesJumps (span : Span) :
    (lower fc (.breakStmt span)).ResolvesJumps labels
      (if labels.canBreak then [] else [.breakJump]) 0 := by
  intro st hst
  have htarget : lower fc (.breakStmt span) st =
      (Lower.ofExcept st.labels.breakTarget >>= fun label => pure (.br label)) st := rfl
  rw [htarget, hst]
  unfold LabelStack.breakTarget LabelStack.canBreak
  cases hscopes : labels.scopes with
  | nil => rfl
  | cons innermost rest => exact ⟨rfl, hst⟩

/-- A `continue` is misplaced where no scope of a loop is open. -/
private theorem lower_continue_resolvesJumps (span : Span) :
    (lower fc (.continueStmt span)).ResolvesJumps labels
      (if labels.canContinue then [] else [.continueJump]) 0 := by
  intro st hst
  have htarget : lower fc (.continueStmt span) st =
      (Lower.ofExcept st.labels.continueTarget >>= fun label => pure (.br label)) st := rfl
  rw [htarget, hst]
  unfold LabelStack.continueTarget LabelStack.canContinue
  -- Lowering looks for the target, where the strays ask only whether there is one.
  cases hfind : labels.scopes.find? (·.kind = .loop) with
  | none =>
    have hnone : labels.scopes.any (·.kind = .loop) = false := by
      rw [List.any_eq_false]
      exact List.find?_eq_none.1 hfind
    rw [hnone]
    rfl
  | some loop =>
    have hloop : decide (loop.kind = .loop) = true := by
      have hkind := List.find?_some hfind
      exact hkind
    have hsome : labels.scopes.any (·.kind = .loop) = true :=
      List.any_eq_true.2 ⟨loop, List.mem_of_find?_eq_some hfind, hloop⟩
    rw [hsome]
    exact ⟨rfl, hst⟩

end

/-! ## Switches -/

section

variable {fc : FunctionContext} {labels : LabelStack}

/-- The numbers of the guards of a switch stay below the limit of a table if there are few enough
    guards. -/
private theorem selectNode_ok (condition : Nat) (slot : Slot) (guards : List Node) :
    ∀ {position : Nat}, position + guards.length ≤ tableLimit →
      ∃ n, selectNode condition slot position guards = .ok n := by
  induction guards with
  | nil => exact fun _ => ⟨_, rfl⟩
  -- The first guard has a number because the last one has.
  | cons guard guards ih =>
    intro position hlimit
    have hlength : position + 1 + guards.length ≤ tableLimit := by
      rw [List.length_cons] at hlimit
      omega
    have hlt : position < tableLimit := by omega
    obtain ⟨rest, hrest⟩ := ih hlength
    refine ⟨.select (.binary .eq slot (.localGet condition slot) guard) (.i32Const position) rest,
      ?_⟩
    unfold selectNode
    rw [hrest]
    dsimp only [bind, Except.bind]
    rw [if_pos hlt]

/-- A switch is dispatched as long as its guards have numbers in the table. -/
private theorem dispatchNode_ok {scope : LabelScope} {condition : Nat} {slot : Slot} {value : Node}
    {cases : List Case} (h : (guardedCases cases).length ≤ tableLimit) :
    ∃ n, dispatchNode scope condition slot value cases = .ok n := by
  have hlimit : 0 + ((guardedCases cases).map (·.2)).length ≤ tableLimit := by
    rw [List.length_map]
    omega
  obtain ⟨index, hindex⟩ := selectNode_ok condition slot _ hlimit
  unfold guardedCases at hindex
  unfold dispatchNode
  dsimp only
  rw [hindex]
  exact ⟨_, rfl⟩

/-- The clauses that are dispatched to by a guard are those that have one in the source. -/
private theorem length_guardedCases {scope : LabelScope} {compared : Ty} {clauses : List Clause} :
    ∀ {ordinal : Nat} {hasDefault : Bool} {st st' : State} {cases : List Case},
    lowerClauses fc scope compared ordinal hasDefault clauses st = .ok cases st' →
    (guardedCases cases).length = guardCount clauses := by
  induction clauses with
  | nil =>
    intro ordinal hasDefault st st' cases h
    obtain ⟨rfl, -⟩ := lowerClauses_nil h
    rfl
  | cons clause clauses ih =>
    intro ordinal hasDefault st st' cases h
    obtain ⟨test, body, span⟩ := clause
    obtain ⟨r, st₁, nodes, st₂, rest, htest, -, hrest, rfl⟩ := lowerClauses_cons h
    have hlater := ih hrest
    unfold guardedCases at hlater ⊢
    -- Only a clause with a test has a guard, a second default has none either.
    rcases lowerTest_eq_ok htest with ⟨e, rfl, rfl, -⟩ | ⟨rfl, -, rfl, -⟩ | ⟨rfl, -, rfl, -⟩
    · simp [guardCount, hlater, Nat.add_comm]
    · simp [guardCount, hlater]
    · simp [guardCount, hlater]

end

/-! ## Statements -/

section

variable {fc : FunctionContext}

mutual

/-- Lowering a statement fails for its first misplaced jump. Without one it succeeds, and all scopes
    of labels that it has opened are closed again. -/
theorem lower_resolvesJumps : (s : Stmt) → ∀ {labels : LabelStack}, labels.Room s.scopeCount →
    s.tableSize ≤ tableLimit →
    (lower fc s).ResolvesJumps labels (s.strays labels.canBreak labels.canContinue) s.scopeCount
  | .exprStmt _ e, labels, _, _ => .compiling fc _
  | .varDecl _ kind ds, labels, _, _ =>
    .quiet_bind (lowerDeclarators_resolvesJumps _ ds) fun _ => .pure _
  | .returnStmt span value, labels, _, _ => lowerReturn_resolvesJumps value span
  | .ifStmt _ c t e, labels, hroom, htable => by
    rw [Stmt.scopeCount] at hroom
    rw [Stmt.tableSize] at htable
    rw [Stmt.strays, Stmt.scopeCount]
    refine .quiet_bind (.compiling fc _) fun c => ?_
    -- The room is divided in the order the parts are lowered in.
    refine .bind (lower_resolvesJumps t hroom.first (by omega)) fun tn _ => ?_
    refine .bind_quiet (lowerOption_resolvesJumps e hroom.rest (by omega)) fun en _ => ?_
    cases en with
    | none => exact .pure _
    | some en => exact .pure _
  | .forStmt _ init c u body, labels, hroom, htable => by
    rw [Stmt.scopeCount] at hroom
    rw [Stmt.tableSize] at htable
    rw [Stmt.strays, Stmt.scopeCount]
    refine .withVariables (.bind (lowerOption_resolvesJumps init hroom.first (by omega))
      fun i _ => ?_)
    -- Only the body is inside of the new scope.
    refine .withLabels hroom.rest (.bind_quiet
      (lowerOption_resolvesJumps body hroom.rest.pushed (by omega)) fun bn _ => ?_)
    refine .quiet_bind (.compiling fc _) fun c => ?_
    exact .quiet_bind (.compiling fc _) fun u => .pure _
  | .whileStmt _ c body, labels, hroom, htable => by
    rw [Stmt.scopeCount] at hroom
    rw [Stmt.tableSize] at htable
    rw [Stmt.strays, Stmt.scopeCount]
    refine .withLabels hroom (.bind_quiet
      (lowerOption_resolvesJumps body hroom.pushed htable) fun bn _ => ?_)
    exact .quiet_bind (.compiling fc _) fun c => .pure _
  | .doWhile _ body c, labels, hroom, htable => by
    rw [Stmt.scopeCount] at hroom
    rw [Stmt.tableSize] at htable
    rw [Stmt.strays, Stmt.scopeCount]
    refine .withLabels hroom (.bind_quiet
      (lower_resolvesJumps body hroom.pushed htable) fun bn _ => ?_)
    exact .quiet_bind (.compiling fc _) fun c => .pure _
  | .block _ ss, labels, hroom, htable => by
    rw [Stmt.scopeCount] at hroom
    rw [Stmt.tableSize] at htable
    rw [Stmt.strays, Stmt.scopeCount]
    exact .withVariables (.bind_quiet (lowerAll_resolvesJumps ss hroom htable) fun _ _ => .pure _)
  | .breakStmt span, labels, _, _ => lower_break_resolvesJumps span
  | .continueStmt span, labels, _, _ => lower_continue_resolvesJumps span
  | .switchStmt _ d [], labels, _, _ => .compiling fc _
  | .switchStmt _ d (clause :: clauses), labels, hroom, htable => by
    rw [Stmt.scopeCount] at hroom
    rw [Stmt.tableSize] at htable
    rw [Stmt.strays, Stmt.scopeCount]
    refine .withLabels hroom (.quiet_bind (.compiling fc _) fun r => ?_)
    refine .quiet_bind (.declare _ _) fun condition => ?_
    have hinner : (labels.pushed .switch).Room (scopeCountClauses (clause :: clauses)) :=
      hroom.pushed
    -- The scope of the switch is a target for `break` and none for `continue`.
    have hclauses : (lowerClauses fc ⟨labels.next, .switch⟩ r.2 0 false
        (clause :: clauses)).ResolvesJumps (labels.pushed .switch)
        (straysClauses (labels.pushed .switch).canContinue (clause :: clauses))
        (scopeCountClauses (clause :: clauses)) :=
      lowerClauses_resolvesJumps (clause :: clauses) hinner rfl (by omega)
    rw [LabelStack.canContinue_pushed_switch] at hclauses
    refine .bind_quiet hclauses.withVariables ?_
    intro cases hcases
    obtain ⟨st, st', hcases⟩ := hcases
    obtain ⟨st₁, hcases, -⟩ := Lower.withVariables_eq_ok hcases
    -- There are no more guards than the table has numbers for.
    have htable' : (guardedCases cases).length ≤ tableLimit := by
      rw [length_guardedCases hcases]
      omega
    obtain ⟨n, hn⟩ : ∃ n, dispatchNode ⟨labels.next, .switch⟩ condition
        (r.2.slot fc.settings.width) r.1 cases = .ok n := dispatchNode_ok htable'
    rw [hn]
    exact .pure n
  | .empty _, labels, _, _ => .pure _
termination_by structural s => s

/-- An absent statement has no jumps, a present one has its own. -/
private theorem lowerOption_resolvesJumps : (s : Option Stmt) → ∀ {labels : LabelStack},
    labels.Room (scopeCountOption s) → tableSizeOption s ≤ tableLimit →
    (lowerOption fc s).ResolvesJumps labels
      (straysOption labels.canBreak labels.canContinue s) (scopeCountOption s)
  | none, _, _, _ => .pure _
  | some s, _, hroom, htable => .bind_quiet (lower_resolvesJumps s hroom htable) fun _ _ => .pure _
termination_by structural s => s

/-- The first jump of a list is that of the first statement that has one. -/
theorem lowerAll_resolvesJumps : (ss : List Stmt) → ∀ {labels : LabelStack},
    labels.Room (scopeCountAll ss) → tableSizeAll ss ≤ tableLimit →
    (lowerAll fc ss).ResolvesJumps labels
      (straysAll labels.canBreak labels.canContinue ss) (scopeCountAll ss)
  | [], labels, _, _ => .pure _
  | s :: ss, labels, hroom, htable => by
    rw [scopeCountAll] at hroom
    rw [tableSizeAll] at htable
    rw [straysAll, scopeCountAll]
    refine .bind (lower_resolvesJumps s hroom.first (by omega)) fun node _ => ?_
    exact .bind_quiet (lowerAll_resolvesJumps ss hroom.rest (by omega)) fun nodes _ => .pure _
termination_by structural ss => ss

/-- The bodies of clauses stand inside of a switch, so in them only `continue` can stray. -/
private theorem lowerClauses_resolvesJumps : (clauses : List Clause) → ∀ {scope : LabelScope}
    {compared : Ty} {ordinal : Nat} {hasDefault : Bool} {labels : LabelStack},
    labels.Room (scopeCountClauses clauses) → labels.canBreak = true →
    tableSizeClauses clauses ≤ tableLimit →
    (lowerClauses fc scope compared ordinal hasDefault clauses).ResolvesJumps labels
      (straysClauses labels.canContinue clauses) (scopeCountClauses clauses)
  | [], scope, compared, ordinal, hasDefault, labels, _, _, _ => .pure _
  | .mk test body span :: clauses, scope, compared, ordinal, hasDefault, labels, hroom, hbreak,
      htable => by
    rw [scopeCountClauses] at hroom
    rw [tableSizeClauses] at htable
    rw [straysClauses, scopeCountClauses]
    refine .quiet_bind (lowerTest_resolvesJumps _ _ _ _ _ _) fun r => ?_
    have hbody := lowerAll_resolvesJumps body hroom.first (by omega)
    rw [hbreak] at hbody
    refine hbody.bind fun nodes _ => ?_
    exact .bind_quiet (lowerClauses_resolvesJumps clauses hroom.rest hbreak (by omega))
      fun rest _ => .pure _
termination_by structural clauses => clauses

end

end

/-! ## Programs -/

/-- Binding the parameters takes no id and meets no jump. -/
private theorem bindParams_resolvesJumps {labels : LabelStack} (span : Span)
    (ps : List Source.Param) :
    ∀ {index : Nat}, (bindParams span index ps).ResolvesJumps labels [] 0 := by
  induction ps with
  | nil => exact .pure _
  | cons p ps ih => exact .quiet_bind (bindVariable_resolvesJumps _ _ _) fun _ => ih

/-- A function is refused for its first misplaced jump, and for nothing else. -/
theorem lowerFunction_eq_error_iff {settings : Settings} {functions : FunctionTable}
    {f : Source.Function} (hscopes : scopeCountAll f.body ≤ LabelStack.limit)
    (htable : tableSizeAll f.body ≤ tableLimit) (e : Error) :
    lowerFunction settings functions f = .error e ↔ f.strays.head?.map jumpError = some e := by
  have hroom : LabelStack.Room {} (scopeCountAll f.body) :=
    ⟨by simp, (Nat.zero_add _).symm ▸ hscopes⟩
  -- All scopes are closed at the end of a body, so the test there passes.
  have hfinish :
      (finish f.name).ResolvesJumps (LabelStack.used {} (scopeCountAll f.body)) [] 0 := by
    intro st hst
    have hdepth : ¬ st.labels.depth ≠ 0 := by
      rw [hst]
      exact fun h => h rfl
    have hok : finish f.name st = .ok () st := by
      show (if st.labels.depth ≠ 0 then throw _ else pure () : Lower Unit) st = _
      rw [if_neg hdepth]
      rfl
    rw [hok]
    exact ⟨rfl, hst⟩
  have hbody : (lowerBody ⟨settings, functions, f.result⟩ f).ResolvesJumps {} f.strays
      (scopeCountAll f.body) := by
    refine .quiet_bind (bindParams_resolvesJumps f.span f.params) fun _ => ?_
    refine .bind_quiet (lowerAll_resolvesJumps f.body hroom htable) fun nodes _ => ?_
    exact .quiet_bind hfinish fun _ => .pure _
  have hrun := hbody { locals := f.params.map fun p => ⟨p.name, p.ty.slot settings.width⟩ } rfl
  unfold lowerFunction
  dsimp only
  cases hok : lowerBody ⟨settings, functions, f.result⟩ f
      { locals := f.params.map fun p => ⟨p.name, p.ty.slot settings.width⟩ } with
  | ok body st =>
    rw [hok] at hrun
    rw [hrun.1]
    simp
  | error e' st =>
    rw [hok] at hrun
    rw [hrun]
    simp

/-- A list fails with the first error of its elements. -/
private theorem mapM_eq_error_iff {α β ε : Type} {f : α → Except ε β} {strays : α → List Jump}
    {report : Jump → ε} {xs : List α}
    (h : ∀ x ∈ xs, ∀ e, f x = .error e ↔ (strays x).head?.map report = some e) (e : ε) :
    xs.mapM f = .error e ↔ (xs.flatMap strays).head?.map report = some e := by
  induction xs with
  | nil => simp [pure, Except.pure]
  | cons x xs ih =>
    have hx := h x List.mem_cons_self
    have hxs := ih fun y hy => h y (List.mem_cons_of_mem _ hy)
    rw [List.mapM_cons, List.flatMap_cons]
    cases hfx : f x with
    | error e' =>
      have hhead := (hx e').1 hfx
      cases hstrays : strays x with
      | nil => rw [hstrays] at hhead; cases hhead
      | cons jump jumps =>
        rw [hstrays] at hhead
        have hfirst : (jump :: jumps ++ xs.flatMap strays).head?.map report = some e' := hhead
        rw [hfirst]
        simp [bind, Except.bind]
    -- An element that is no error has no jumps, and the rest decides.
    | ok y =>
      have hnil : strays x = [] := by
        cases hstrays : strays x with
        | nil => rfl
        | cons jump jumps =>
          have herror := (hx (report jump)).2 (by rw [hstrays]; rfl)
          rw [hfx] at herror
          cases herror
      rw [hnil, List.nil_append, ← hxs]
      cases hrest : xs.mapM f with
      | error e' => simp [bind, Except.bind]
      | ok ys => simp [bind, Except.bind, pure, Except.pure]

/-- A program is refused exactly if one of its functions has a misplaced jump, and the error is that
    of the first one. Nothing else is ever refused in a program whose functions have less than
    2^32 - 1 loops and switches, and less than 2^31 guarded clauses in a switch. -/
theorem lowerProgram_eq_error_iff {settings : Settings} {p : Source.Program}
    (hscopes : ∀ f ∈ p.functions, scopeCountAll f.body < 2 ^ 32 - 1)
    (htable : ∀ f ∈ p.functions, tableSizeAll f.body < 2 ^ 31) (e : Error) :
    lowerProgram settings p = .error e ↔ p.strays.head?.map jumpError = some e := by
  have hfunctions : ∀ f ∈ p.functions, ∀ e, lowerFunction settings (enterAll {} (callables p)).1 f =
      .error e ↔ f.strays.head?.map jumpError = some e := by
    intro f hf
    exact lowerFunction_eq_error_iff (Nat.le_of_lt (hscopes f hf)) (Nat.le_of_lt (htable f hf))
  have hall := mapM_eq_error_iff hfunctions e
  unfold Source.Program.strays
  rw [← hall]
  unfold lowerProgram
  dsimp only
  cases hlowered : p.functions.mapM (lowerFunction settings (enterAll {} (callables p)).1) with
  | error e' => simp [bind, Except.bind]
  | ok lowered => simp [bind, Except.bind, pure, Except.pure]

/-- A program whose first function is in order: it continues a loop from inside of a switch. The
    second one continues from a switch that is in no loop, and breaks from the first part of a `for`
    loop. -/
def strayed : Source.Program where
  imports := []
  functions := [
    { name := "first", params := [], result := .void, bodySpan := .empty, isExported := false,
      span := .empty
      body := [.whileStmt .empty (.literal .empty (.boolean true)) (some (.block .empty [
        .switchStmt .empty (.literal .empty (.int 1)) [
          .mk (some (.literal .empty (.int 1))) [.continueStmt .empty] .empty,
          .mk none [.breakStmt .empty] .empty],
        .breakStmt .empty]))] },
    { name := "second", params := [], result := .void, bodySpan := .empty, isExported := false,
      span := .empty
      body := [
        .switchStmt .empty (.literal .empty (.int 1)) [
          .mk none [.ifStmt .empty (.literal .empty (.boolean true)) (.continueStmt .empty) none,
            .breakStmt .empty] .empty],
        .forStmt .empty (some (.breakStmt .empty)) none none (some (.continueStmt .empty))] }]

/-- The first function is in order, and the first jump of the second is what the program fails with.
    -/
theorem strayed_refused :
    (∀ f ∈ strayed.functions, scopeCountAll f.body < 2 ^ 32 - 1) ∧
      (∀ f ∈ strayed.functions, tableSizeAll f.body < 2 ^ 31) ∧
      strayed.strays = [.continueJump, .breakJump] ∧
      lowerProgram {} strayed = .error .continueOutsideLoop := by
  have hscopes : ∀ f ∈ strayed.functions, scopeCountAll f.body < 2 ^ 32 - 1 := by
    decide
  have htable : ∀ f ∈ strayed.functions, tableSizeAll f.body < 2 ^ 31 := by
    decide
  have hstrays : strayed.strays = [.continueJump, .breakJump] := by
    decide
  refine ⟨hscopes, htable, hstrays, ?_⟩
  rw [lowerProgram_eq_error_iff hscopes htable, hstrays]
  rfl

end Weir.Lowering
