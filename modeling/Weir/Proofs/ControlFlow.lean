import Weir.Proofs.Dispatch

/-!
# Lowering preserves control flow

A statement that is lowered without a report runs as it is executed: the two end in the same way,
with the same locals and after the same calls of hosts, whatever the nesting of loops and switches.

## Key results

- `evalNode_whileNode`, `evalNode_doWhileNode`, `evalNode_forNode`: what the shapes of loops run
- `lower_simulates`: statements and their code, by induction on statements
- `lower_agrees_exec`: the same for the code of a module
-/

namespace Weir.Lowering

open Weir.Code (Label LabelKind Node Slot Value)
open Weir.Machine
open Weir.Machine.Run (catching condition repeating setLocal value)
open Weir.Source (Clause Declarator Expr Span Stmt Ty)

variable {σ : Type} {call : Nat → List Value → Run σ (Option Value)} {clock : Nat}

/-! ## Sequences -/

/-- A sequence runs its nodes, whether or not it has a block around them. -/
private theorem evalNode_sequence (ns : List Node) :
    evalNode call clock (sequence ns) = evalAll call clock none ns := by
  unfold sequence
  split
  · simp only [evalNode, evalAll]
  · rw [evalAll_singleton]
  · simp only [evalNode]

/-! ## Shapes of loops -/

/-- A `while` loop tests, runs its body and jumps back. -/
theorem evalNode_whileNode (scope : LabelScope) (c body : Node) :
    evalNode call clock (whileNode scope c body) =
      catching (scope.label .exit) (repeating (scope.label .next) (do
        if ← condition (evalNode call clock c) then do
          let _ ← evalNode call clock body
          throw (.branch (scope.label .next))
        else pure none) clock) := by
  unfold whileNode
  dsimp only
  -- A body that does nothing has no code.
  split
  · simp only [evalNode, evalAll_singleton, pure_bind]
  · simp only [evalNode, evalAll, bind_pure]

/-- A `do` loop runs its body and jumps back if the test holds. -/
theorem evalNode_doWhileNode (scope : LabelScope) (c body : Node) :
    evalNode call clock (doWhileNode scope c body) =
      catching (scope.label .exit) (repeating (scope.label .head) (do
        let _ ← catching (scope.label .next) (evalNode call clock body)
        if ← condition (evalNode call clock c) then throw (.branch (scope.label .head))
        else pure none) clock) := by
  simp only [doWhileNode, evalNode, evalAll, bind_pure]

/-- A `for` loop tests, runs its body and its update and jumps back. -/
theorem evalNode_forNode (scope : LabelScope) (init c u : Option Node) (body : Node) :
    evalNode call clock (forNode scope init c u body) =
      catching (scope.label .exit) (do
        let _ ← evalAll call clock none init.toList
        repeating (scope.label .head) (do
          if ← testRun (evalNode call clock) c then do
            let _ ← catching (scope.label .next) (evalNode call clock body)
            updateRun (evalNode call clock) u
            throw (.branch (scope.label .head))
          else pure none) clock) := by
  -- After the body comes the update, if there is one, and then the jump back.
  have hround (v : Option Value) :
      evalAll call clock v (u.toList ++ [.br (scope.label .head)]) = (do
        updateRun (evalNode call clock) u
        throw (.branch (scope.label .head))) := by
    cases u with
    | none => simp [evalAll, evalNode, updateRun]
    | some u => simp [evalAll, evalNode, updateRun]
  cases c with
  | none =>
    simp only [forNode, evalNode, evalAll_append, evalAll, hround, testRun, bind_pure, pure_bind,
      if_true]
  | some c => simp only [forNode, evalNode, evalAll_append, evalAll, hround, testRun, bind_pure]

/-- The test of a for loop does not jump, and passes if there is none. -/
private theorem aborts_testRun (hcall : CallsAbort call) {c : Option Node}
    (hc : ∀ n ∈ c, n.isPlain) : Aborts (testRun (evalNode call clock) c) := by
  cases c with
  | none => exact keeps_pure trivial
  | some c => exact (aborts_of_isPlain hcall (hc c rfl)).condition

/-- The update of a for loop does not jump. -/
private theorem aborts_updateRun (hcall : CallsAbort call) {u : Option Node}
    (hu : ∀ n ∈ u, n.isPlain) : Aborts (updateRun (evalNode call clock) u) := by
  cases u with
  | none => exact keeps_pure trivial
  | some u => exact (aborts_of_isPlain hcall (hu u rfl)).bind fun _ _ => keeps_pure trivial

section

variable {id next : Nat} {outer : LabelStack} {f g : Run σ Outcome} {body : Node}

/-- The code of a while statement simulates its rounds. -/
private theorem simulates_while (hcall : CallsAbort call) {c : Node} (hc : c.isPlain)
    (hbody : Simulates ⟨⟨id, .loop⟩ :: outer.scopes, next⟩ f (evalNode call clock body)) :
    Simulates outer (rounds (whileRound (condition (evalNode call clock c)) f) clock)
      (evalNode call clock (whileNode ⟨id, .loop⟩ c body)) := by
  rw [evalNode_whileNode]
  refine RoundSimulates.rounds ?_ (by simp [LabelScope.label]) clock
  exact .guarded (aborts_of_isPlain hcall hc).condition (hbody.jumpBack rfl rfl)

/-- The code of a do statement simulates its rounds. -/
private theorem simulates_doWhile (hcall : CallsAbort call) {c : Node} (hc : c.isPlain)
    (hbody : Simulates ⟨⟨id, .loop⟩ :: outer.scopes, next⟩ f (evalNode call clock body)) :
    Simulates outer (rounds (doWhileRound (condition (evalNode call clock c)) f) clock)
      (evalNode call clock (doWhileNode ⟨id, .loop⟩ c body)) := by
  rw [evalNode_doWhileNode]
  refine RoundSimulates.rounds ?_ (by simp [LabelScope.label]) clock
  -- The test follows the body, and jumps back if it holds.
  refine hbody.bodyThen rfl rfl (by simp [LabelScope.label]) fun _ => ?_
  exact .guarded (aborts_of_isPlain hcall hc).condition roundSimulates_normal

/-- The initial part of a `for` loop is within the block of the end of the loop, but outside the
    scope of the loop: its jumps lead elsewhere. -/
private theorem simulates_for (hcall : CallsAbort call) {init c u : Option Node}
    (hfresh : ∀ s ∈ outer.scopes, s.id ≠ id) (hc : ∀ n ∈ c, n.isPlain) (hu : ∀ n ∈ u, n.isPlain)
    (hinit : Simulates outer g (evalAll call clock none init.toList))
    (hbody : Simulates ⟨⟨id, .loop⟩ :: outer.scopes, next⟩ f (evalNode call clock body)) :
    Simulates outer
      (andThen g (rounds (forRound (testRun (evalNode call clock) c)
        (updateRun (evalNode call clock) u) f) clock))
      (evalNode call clock (forNode ⟨id, .loop⟩ init c u body)) := by
  have hbreak : outer.breakTarget ≠ .ok (LabelScope.label ⟨id, .loop⟩ .exit) := by
    intro h
    obtain ⟨s, hs, hlabel⟩ := LabelStack.breakTarget_eq_ok h
    have hid : s.id = id := (congrArg Label.scope hlabel).symm
    exact hfresh s hs hid
  have hcontinue : outer.continueTarget ≠ .ok (LabelScope.label ⟨id, .loop⟩ .exit) := by
    intro h
    cases continueTarget_kind h
  rw [evalNode_forNode, ← Run.catching_bind_catching]
  refine (hinit.andThen fun _ => ?_).catching hbreak hcontinue
  refine RoundSimulates.rounds ?_ (by simp [LabelScope.label]) clock
  refine .guarded (aborts_testRun hcall hc) ?_
  -- The update follows the body, and the jump back follows the update.
  refine hbody.bodyThen rfl rfl (by simp [LabelScope.label]) fun _ => ?_
  exact .bind (aborts_updateRun hcall hu) fun _ => roundSimulates_normal

end

/-! ## Declarations -/

variable {fc : FunctionContext} {st st' : State}

/-- The code of a declaration gives the variables their initial values. -/
private theorem evalAll_declarators {isConst : Bool} {ds : List Declarator} {sets : List Node}
    (h : lowerDeclarators fc isConst ds st = .ok sets st') (v : Option Value) :
    (do
      let _ ← evalAll call clock v sets
      pure ()) = execDeclarators fc (evalNode call clock) isConst ds st := by
  induction ds generalizing st sets v with
  | nil =>
    obtain ⟨rfl, -⟩ := lowerDeclarators_nil h
    simp only [evalAll, execDeclarators, pure_bind]
  | cons d ds ih =>
    obtain ⟨first, st₁, rest, hfirst, hrest, rfl⟩ := lowerDeclarators_cons h
    obtain ⟨rfl, -⟩ := lowerDeclarator_eq_ok hfirst
    simp only [evalAll_append, bind_assoc, ih hrest, execDeclarators, Lower.after_of_ok hfirst]
    -- A variable has an initial value, or else the zero of its slot if there is one.
    generalize compileInitial (fc.context st) d (declaredType? d) = r
    obtain ⟨⟨initial, t⟩, reports⟩ := r
    unfold initialNodes
    dsimp only
    cases initial with
    | some node => simp only [evalAll, evalNode, bind_assoc, pure_bind]
    | none =>
      cases Value.zero? (t.slot fc.settings.width) with
      | some zero => simp only [evalAll, evalNode, Run.value_pure_some, bind_assoc, pure_bind]
      | none => simp only [evalAll, pure_bind]

/-- The guards of clauses are tested as they are compiled. -/
private theorem clauseTests_eq {scope : LabelScope} {compared : Ty} {clauses : List Clause}
    {ordinal : Nat} {hasDefault : Bool} {cases : List Case}
    (h : lowerClauses fc scope compared ordinal hasDefault clauses st = .ok cases st')
    (hquiet : st'.reports = st.reports) :
    clauseTests fc compared clauses st = cases.map Case.guard := by
  -- The induction is on the clauses. Each test is compiled where the bodies before it have been
  -- lowered.
  induction clauses generalizing ordinal hasDefault st cases with
  | nil =>
    obtain ⟨rfl, -⟩ := lowerClauses_nil h
    rfl
  | cons clause clauses ih =>
    obtain ⟨test, body, span⟩ := clause
    obtain ⟨-, label, nodes, st₁, rest, hbody, -, hrest, hrestReports, rfl⟩ :=
      lowerClauses_cons_quiet h hquiet
    rw [clauseTests, Lower.after_of_ok hbody, ih hrest hrestReports, List.map_cons]

/-! ## Statements -/

/-- A part of a statement that may be missing does nothing where it is. -/
private theorem evalAll_toList (o : Option Node) :
    evalAll call clock none o.toList = evalNode call clock (o.getD .nop) := by
  cases o with
  | none => simp [evalAll, evalNode]
  | some n => exact evalAll_singleton none n

private theorem value_mapM {α β : Type} (f : α → Reported β) (o : Option α) :
    (o.mapM f).value = o.map fun a => (f a).value := by
  cases o <;> rfl

mutual

/-- The code of a statement that is lowered without a report runs as the statement is executed. The
    induction is on the statement: each loop and switch knows where the labels of its scope are. -/
theorem lower_simulates (hcall : CallsAbort call) : (s : Stmt) → ∀ {st st' : State} {n : Node},
    lower fc s st = .ok n st' → st'.reports = st.reports →
    Simulates st.labels (exec fc (evalNode call clock) clock s st) (evalNode call clock n)
  | .exprStmt _ e, st, st', n, h, hquiet => by
    obtain ⟨rfl, -⟩ := lower_exprStmt h
    simp only [exec]
    exact simulates_of_aborts (aborts_of_isPlain hcall (compileDiscarded_isPlain _ e))
  | .varDecl _ kind ds, st, st', n, h, hquiet => by
    obtain ⟨sets, hsets, rfl⟩ := lower_varDecl h
    simp only [exec]
    rw [← evalAll_declarators hsets none, ← evalNode_sequence]
    simp only [bind_assoc, pure_bind]
    have hplain := sequence_isPlain (lowerDeclarators_isPlain hsets)
    exact simulates_of_aborts (aborts_of_isPlain hcall hplain)
  | .returnStmt _ value?, st, st', n, h, hquiet => by
    rcases lower_return_quiet h hquiet with ⟨e, rfl, -, -, rfl, -⟩ | ⟨rfl, -, rfl, -⟩
    · have hn := compileReturned_isPlain (fc.context st) e fc.result
      simp only [exec, evalNode]
      exact .bind (aborts_of_isPlain hcall hn).value fun v => simulates_returned (some v)
    · simp only [exec, evalNode]
      exact simulates_returned none
  | .ifStmt _ c t e, st, st', n, h, hquiet => by
    obtain ⟨-, tn, st₁, en, ht, hreports, he, helse, hn⟩ := lower_if_quiet h hquiet
    have hsim := (lowerOption_simulates hcall e he helse).of_scopes (lower_advances t ht).scopes
    -- A missing branch does nothing.
    have hcode : evalNode call clock n = (do
        if ← condition (evalNode call clock (compileCondition (fc.context st) c).value) then
          evalNode call clock tn
        else evalNode call clock (en.getD .nop)) := by
      rw [hn]
      cases en <;> simp only [evalNode, Option.getD_none, Option.getD_some]
    rw [hcode]
    simp only [exec, Lower.after_of_ok ht]
    refine .bind (aborts_of_isPlain hcall (compileCondition_isPlain _ c)).condition fun b => ?_
    cases b with
    | true => exact lower_simulates hcall t ht hreports
    | false => exact hsim
  | .forStmt _ init c u body, st, st', n, h, hquiet => by
    obtain ⟨i, st₁, bn, st₂, hinit, hreports, hbody, hbodyReports, hfresh, -, -, rfl, -⟩ :=
      lower_for_quiet h hquiet
    have hadv := lowerOption_advances init hinit
    -- The initial part is lowered outside the scope of the loop, the body inside it.
    have hinitSim := lowerOption_simulates hcall init hinit hreports
    have hbodySim := lowerOption_simulates hcall body hbody hbodyReports
    simp only [exec, Lower.after_of_ok hinit, Lower.after_of_ok hbody, ← value_mapM]
    refine (simulates_for hcall hfresh ?_ ?_ ?_ hbodySim).of_scopes hadv.scopes
    · exact isPlain_of_mapM (compileCondition_isPlain _) c
    · exact isPlain_of_mapM (compileDiscarded_isPlain _) u
    · rw [evalAll_toList]
      exact hinitSim.of_scopes hadv.scopes.symm
  | .whileStmt _ c body, st, st', n, h, hquiet => by
    obtain ⟨bn, st₁, hbody, hreports, -, rfl, -⟩ := lower_while_quiet h hquiet
    have hsim := lowerOption_simulates hcall body hbody hreports
    simp only [exec, Lower.after_of_ok hbody]
    exact simulates_while hcall (compileCondition_isPlain _ c) hsim
  | .doWhile _ body c, st, st', n, h, hquiet => by
    obtain ⟨bn, st₁, hbody, hreports, -, rfl, -⟩ := lower_doWhile_quiet h hquiet
    have hsim := lower_simulates hcall body hbody hreports
    simp only [exec, Lower.after_of_ok hbody]
    exact simulates_doWhile hcall (compileCondition_isPlain _ c) hsim
  | .block _ ss, st, st', n, h, hquiet => by
    obtain ⟨nodes, st₁, hnodes, rfl, rfl⟩ := lower_block h
    simp only [exec, evalNode]
    exact lowerAll_simulates hcall ss hnodes hquiet none
  | .breakStmt _, st, st', n, h, hquiet => by
    obtain ⟨label, htarget, rfl, -⟩ := lower_break h
    simp only [exec, evalNode]
    exact simulates_broke htarget
  | .continueStmt _, st, st', n, h, hquiet => by
    obtain ⟨label, htarget, rfl, -⟩ := lower_continue h
    simp only [exec, evalNode]
    exact simulates_continued htarget
  | .switchStmt _ d [], st, st', n, h, hquiet => by
    obtain ⟨rfl, -⟩ := lower_switch_nil h
    simp only [exec]
    exact simulates_of_aborts (aborts_of_isPlain hcall (compileDropped_isPlain _ d .void))
  | .switchStmt _ d (clause :: clauses), st, st', n, h, hquiet => by
    obtain ⟨-, cases, st₁, hclauses, hreports, hdispatch, -⟩ :=
      lower_switch_quiet (by simp) h hquiet
    have htests := clauseTests_eq hclauses hreports
    -- The guards do not jump, and the bodies simulate their statements; the labels lead to the
    -- latter.
    have hplain : ∀ g, some g ∈ cases.map Case.guard → g.isPlain := by
      intro g hg
      obtain ⟨c, hc, hguard⟩ := List.mem_map.1 hg
      exact lowerClauses_isPlain hclauses c hc g hguard
    have hbodies := lowerClauses_simulates hcall (clause :: clauses) hclauses hreports
    obtain ⟨hnodup, -⟩ := lowerClauses_labels hclauses
    have hkinds : ∀ c ∈ cases, c.label.kind ≠ .exit ∧ c.label.kind ≠ .next :=
      fun c hc => (lowerClauses_own_labels hclauses c hc).2
    simp only [exec, htests]
    exact simulates_switch hcall (compileDiscriminant_isPlain _ d) hplain hnodup hkinds
      (lowerClauses_leadsTo hclauses) hbodies hdispatch
  | .empty _, st, st', n, h, hquiet => by
    obtain ⟨rfl, -⟩ := lower_empty h
    simp only [exec, evalNode]
    exact simulates_normal none
termination_by structural s => s

private theorem lowerOption_simulates (hcall : CallsAbort call) : (s : Option Stmt) →
    ∀ {st st' : State} {o : Option Node},
    lowerOption fc s st = .ok o st' → st'.reports = st.reports →
    Simulates st.labels (execOption fc (evalNode call clock) clock s st)
      (evalNode call clock (o.getD .nop))
  | none, st, st', o, h, hquiet => by
    obtain ⟨rfl, -⟩ := lowerOption_none h
    simp only [execOption, Option.getD_none, evalNode]
    exact simulates_normal none
  | some s, st, st', o, h, hquiet => by
    obtain ⟨node, hnode, rfl⟩ := lowerOption_some h
    simp only [execOption, Option.getD_some]
    exact lower_simulates hcall s hnode hquiet
termination_by structural s => s

/-- A list of statements is simulated by its nodes, which run as long as they end normally. -/
private theorem lowerAll_simulates (hcall : CallsAbort call) : (ss : List Stmt) →
    ∀ {st st' : State} {ns : List Node},
    lowerAll fc ss st = .ok ns st' → st'.reports = st.reports → ∀ v,
    Simulates st.labels (execAll fc (evalNode call clock) clock ss st) (evalAll call clock v ns)
  | [], st, st', ns, h, hquiet, v => by
    obtain ⟨rfl, -⟩ := lowerAll_nil h
    simp only [execAll, evalAll]
    exact simulates_normal v
  | s :: ss, st, st', ns, h, hquiet, v => by
    obtain ⟨node, st₁, nodes, hnode, hreports, hnodes, hrest, rfl⟩ := lowerAll_cons_quiet h hquiet
    simp only [execAll, evalAll, Lower.after_of_ok hnode]
    refine (lower_simulates hcall s hnode hreports).andThen fun w => ?_
    exact (lowerAll_simulates hcall ss hnodes hrest w).of_scopes (lower_advances s hnode).scopes
termination_by structural ss => ss

/-- The bodies of the clauses are simulated one by one. -/
private theorem lowerClauses_simulates (hcall : CallsAbort call) {scope : LabelScope}
    {compared : Ty} :
    (clauses : List Clause) → ∀ {ordinal : Nat} {hasDefault : Bool} {st st' : State}
    {cases : List Case},
    lowerClauses fc scope compared ordinal hasDefault clauses st = .ok cases st' →
    st'.reports = st.reports →
    BodiesSimulate call clock st.labels (execBodies fc (evalNode call clock) clock clauses st) cases
  | [], ordinal, hasDefault, st, st', cases, h, hquiet => by
    obtain ⟨rfl, -⟩ := lowerClauses_nil h
    simp only [execBodies]
    exact .nil
  | .mk test body span :: clauses, ordinal, hasDefault, st, st', cases, h, hquiet => by
    obtain ⟨-, label, nodes, st₁, rest, hbody, hreports, hrest, hrestReports, rfl⟩ :=
      lowerClauses_cons_quiet h hquiet
    simp only [execBodies, Lower.after_of_ok hbody]
    refine .cons (lowerAll_simulates hcall body hbody hreports) ?_
    have hsim := lowerClauses_simulates hcall clauses hrest hrestReports
    exact hsim.imp fun f c hf v => (hf v).of_scopes (lowerAll_advances body hbody).scopes
termination_by structural clauses => clauses

end

/-! ## Code of a module -/

/-- A statement that is lowered without a report, and the code that it is lowered to, run alike in
    any module: from any locals, and whatever the hosts do, the run ends as the execution does, in
    the same state. Neither is limited by fuel. -/
theorem lower_agrees_exec (env : Environment σ) (depth clock : Nat) {fc : FunctionContext}
    {S : Stmt} {st st' : State} {n : Node} (h : lower fc S st = .ok n st')
    (hquiet : st'.reports = st.reports) {s : Machine.State σ} (hs : s.fuel = none) :
    Agrees st.labels (exec fc (evalNode (env.call depth) clock) clock S st s)
      (evalNode (env.call depth) clock n s) :=
  lower_simulates (call_aborts env depth) S h hquiet s hs

/-- A loop around a switch whose first clause continues the loop, whose second one is the default
    and falls through, and whose third one breaks. -/
def detour : Stmt :=
  let number (k : BitVec 64) : Expr := .literal .empty (.int k)
  let add (name : String) (k : BitVec 64) : Expr := .assign .empty .add ⟨.empty, name⟩ (number k)
  .block .empty [
    .varDecl .empty .letVar [⟨⟨.empty, "sum"⟩, some .i32, none⟩],
    .forStmt .empty
      (some (.varDecl .empty .letVar [⟨⟨.empty, "i"⟩, some .i32, none⟩]))
      (some (.binary .empty .lt (.name .empty "i") (number 4)))
      (some (add "i" 1))
      (some (.switchStmt .empty (.name .empty "i") [
        .mk (some (number 1)) [.continueStmt .empty] .empty,
        .mk none [.exprStmt .empty (add "sum" 10)] .empty,
        .mk (some (number 2)) [.exprStmt .empty (add "sum" 100), .breakStmt .empty] .empty]))]

/-- The code of the example does run to its end. -/
private theorem detour_runs :
    let call : Nat → List Value → Run Unit (Option Value) :=
      Environment.call ⟨⟨[], []⟩, fun _ => none⟩ 0
    ∃ n st', lower ⟨{}, {}, .void⟩ detour {} = .ok n st' ∧ st'.reports = [] ∧
      ∃ s, evalNode call 5 n ⟨[.i32 0, .i32 0, .i32 0], none, 0, ()⟩ = .ok none s ∧
        s.locals = [.i32 320, .i32 4, .i32 3] := by
  intro call
  have hfacts : (((lower ⟨{}, {}, .void⟩ detour).run' {}).any fun n =>
      decide ((do
        let v ← evalNode call 5 n
        let s ← get
        pure (v, s.locals) : Run Unit _).run' ⟨[.i32 0, .i32 0, .i32 0], none, 0, ()⟩ =
          some (none, [.i32 320, .i32 4, .i32 3]))) = true := by
    decide +kernel
  have hreports : ((lower ⟨{}, {}, .void⟩ detour).after {}).reports = [] := by
    decide +kernel
  -- What has been computed is read back as the two results.
  obtain ⟨n, hn, hrun⟩ := (Option.any_eq_true _ _).1 hfacts
  obtain ⟨st', hlower⟩ := exists_ok_of_run' hn
  obtain ⟨s', hs'⟩ := exists_ok_of_run' (of_decide_eq_true hrun)
  rw [Lower.after_of_ok hlower] at hreports
  refine ⟨n, st', hlower, hreports, ?_⟩
  rw [Run.bind_apply] at hs'
  cases heval : evalNode call 5 n ⟨[.i32 0, .i32 0, .i32 0], none, 0, ()⟩ with
  | error e s =>
    rw [heval] at hs'
    cases hs'
  | ok v s =>
    rw [heval] at hs'
    have hresult : (v, s.locals) = (none, [.i32 320, .i32 4, .i32 3]) :=
      (EStateM.Result.ok.inj hs').1
    obtain ⟨rfl, hlocals⟩ := Prod.mk.inj hresult
    exact ⟨s, rfl, hlocals⟩

/-- The execution of the example agrees with its code, which leaves the locals as it should. -/
theorem detour_agrees :
    let call : Nat → List Value → Run Unit (Option Value) :=
      Environment.call ⟨⟨[], []⟩, fun _ => none⟩ 0
    ∃ n st', lower ⟨{}, {}, .void⟩ detour {} = .ok n st' ∧ st'.reports = [] ∧
      ∃ start s, start.fuel = none ∧ evalNode call 5 n start = .ok none s ∧
        s.locals = [.i32 320, .i32 4, .i32 3] ∧
        Agrees {} (exec ⟨{}, {}, .void⟩ (evalNode call 5) 5 detour {} start)
          (evalNode call 5 n start) := by
  intro call
  obtain ⟨n, st', hn, hreports, s, hs, hlocals⟩ := detour_runs
  exact ⟨n, st', hn, hreports, _, s, rfl, hs, hlocals, lower_agrees_exec _ 0 5 hn hreports rfl⟩

end Weir.Lowering
