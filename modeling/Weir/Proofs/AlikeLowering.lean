import Weir.Lowering.Program
import Weir.Proofs.LowerStep

/-!
# Lowering alike

Lowering looks at neither the problems that were reported before nor the node that stands for a
`return` that does not fit its function. So two lowerings of one statement that differ in these
take the same steps: they give the same labels and declare the same locals, report the same
problems, and fail with the same error. Their nodes are the same too, unless such a `return` was
reported on the way and the two put different nodes in its place.

## Key results

- `Lower.Parallels`: two lowerings take the same steps, whatever was reported before the second one
- `lower_parallels`, `lowerBody_parallels`: lowering statements and functions
-/

namespace Weir.Lowering

open Weir.Code (Label Node Slot)
open Weir.Source (Clause Declarator Expr Param Span Stmt Ty)

/-- No report is about a `return` that does not fit its function. -/
def Unpoisoned (reports : List Diagnostic) : Prop :=
  ∀ d ∈ reports, d.problem ≠ .returnValueInVoidFunction ∧ d.problem ≠ .missingReturnValue

/-- The state with problems that were reported before all others. -/
def State.after (st : State) (earlier : List Diagnostic) : State :=
  { st with reports := earlier ++ st.reports }

/-- It makes no difference which reports are added first, those before a state or those after it. -/
private theorem State.after_noting (st : State) (earlier ds : List Diagnostic) :
    (st.noting ds).after earlier = (st.after earlier).noting ds := by
  simp only [after, noting, List.append_assoc]

/-! ## Lowerings side by side -/

/-- How two lowerings end that take the same steps, where `before` was reported before both and
    `earlier` before that in the second one. The results are related by `R`. They are equal where
    all that went into them is `known` to be equal, and where the same node stands for what is
    poisoned or nothing is. -/
inductive Outcomes {α : Type} (same known : Prop) (R : α → α → Prop)
    (earlier before : List Diagnostic) :
    EStateM.Result Error State α → EStateM.Result Error State α → Prop
  | ok {a a' : α} {st : State} {ds : List Diagnostic} (reports : st.reports = before ++ ds)
      (related : R a a') (equal : known → same ∨ Unpoisoned ds → a' = a) :
      Outcomes same known R earlier before (.ok a st) (.ok a' (st.after earlier))
  | error (e : Error) (st st' : State) :
      Outcomes same known R earlier before (.error e st) (.error e st')

/-- Two lowerings take the same steps, whatever was reported before the second one. -/
def Lower.Parallels {α : Type} (same known : Prop) (R : α → α → Prop) (x x' : Lower α) : Prop :=
  ∀ earlier st, Outcomes same known R earlier st.reports (x st) (x' (st.after earlier))

/-- The contexts may differ in whether poisoned statements trap. -/
structure FunctionContext.Parallels (same : Prop) (fc fc' : FunctionContext) : Prop where
  width : fc'.settings.width = fc.settings.width
  trapOnError : same → fc'.settings.trapOnError = fc.settings.trapOnError
  functions : fc'.functions = fc.functions
  result : fc'.result = fc.result

namespace Lower

variable {α β : Type} {same known : Prop} {fc fc' : FunctionContext} {R : α → α → Prop}
  {S : β → β → Prop}

/-- What is done without the state has the same outcome after any reports. -/
private theorem parallels_pure {a a' : α} (h : R a a') (heq : known → a' = a) :
    Parallels same known R (pure a) (pure a') :=
  fun _ _ => .ok (List.append_nil _).symm h fun hknown _ => heq hknown

/-- Computations that are parallel with results of one relation are so with those of a weaker one.
    -/
theorem Parallels.mono {R' : α → α → Prop} {x x' : Lower α} (h : x.Parallels same known R x')
    (hR : ∀ a a', R a a' → R' a a') : x.Parallels same known R' x' := by
  intro earlier st
  have hx := h earlier st
  generalize x st = first at hx
  generalize x' (st.after earlier) = second at hx
  cases hx with
  | error e => exact .error e _ _
  | ok hds hrelated heq => exact .ok hds (hR _ _ hrelated) heq

/-- An error is the same after any reports. -/
private theorem parallels_throw (e : Error) : Parallels same known R (throw e) (throw e) :=
  fun _ _ => .error e _ _

/-- A check without regard to the state is the same after any reports. -/
private theorem parallels_ofExcept (r : Except Error α) :
    Parallels same known Eq (ofExcept r) (ofExcept r) := by
  cases r with
  | ok a => exact parallels_pure rfl fun _ => rfl
  | error e => exact parallels_throw e

/-- What goes on from results that are related is known to be the same where these are equal. -/
theorem Parallels.bind {x x' : Lower α} {k k' : α → Lower β} (h : x.Parallels same True R x')
    (hk : ∀ a a', R a a' → (k a).Parallels same (known ∧ a' = a) S (k' a')) :
    (x >>= k).Parallels same known S (x' >>= k') := by
  intro earlier st
  have hx := h earlier st
  simp only [Bind.bind, EStateM.bind]
  generalize x st = first at hx
  generalize x' (st.after earlier) = second at hx
  cases hx with
  | error e => exact .error e _ _
  | @ok a a' st₁ ds hds hR heq =>
    have hnext := hk a a' hR earlier st₁
    dsimp only
    generalize k a st₁ = first at hnext
    generalize k' a' (st₁.after earlier) = second at hnext
    cases hnext with
    | error e => exact .error e _ _
    | @ok b b' st₂ es hes hS heq' =>
      have hreports : st₂.reports = st.reports ++ (ds ++ es) := by
        rw [hes, hds, List.append_assoc]
      refine .ok hreports hS fun hknown hclean => ?_
      -- Nothing is poisoned in the two parts, if nothing is in the whole.
      have hparts : same ∨ (Unpoisoned ds ∧ Unpoisoned es) :=
        hclean.imp id fun hall => by
          rw [Unpoisoned, List.forall_mem_append] at hall
          exact hall
      exact heq' ⟨hknown, heq trivial (hparts.imp id And.left)⟩ (hparts.imp id And.right)

/-- What goes on from results that are equal anyway. -/
private theorem Parallels.bind_eq {x x' : Lower α} {k k' : α → Lower β}
    (h : x.Parallels same True Eq x')
    (hk : ∀ a, (k a).Parallels same known S (k' a)) :
    (x >>= k).Parallels same known S (x' >>= k') := by
  refine h.bind fun a a' haa => ?_
  subst haa
  intro earlier st
  have hnext := hk a earlier st
  generalize k a st = first at hnext
  generalize k' a (st.after earlier) = second at hnext
  cases hnext with
  | error e => exact .error e _ _
  | ok hds hS heq => exact .ok hds hS fun hknown => heq hknown.1

/-- A report is added after whatever has been reported. -/
private theorem parallels_report (problem : Problem) (span : Span) :
    Parallels same known Eq (report problem span) (report problem span) := by
  intro earlier st
  have hreport : ∀ st : State,
      report problem span st = .ok () (st.noting [⟨problem, span⟩]) := fun _ => rfl
  rw [hreport, hreport, ← State.after_noting]
  exact .ok rfl rfl fun _ _ => rfl

/-- Expressions are compiled with the names in scope alone. -/
private theorem parallels_compiling (hfc : fc.Parallels same fc') (f : Context → Reported α) :
    Parallels same known Eq (compiling fc f) (compiling fc' f) := by
  intro earlier st
  have hcompiling : ∀ (fc : FunctionContext) (st : State),
      compiling fc f st = .ok (f (fc.context st)).value (st.noting (f (fc.context st)).reports) :=
    fun _ _ => rfl
  have hctx : fc'.context (st.after earlier) = fc.context st := by
    simp only [FunctionContext.context, hfc.width, hfc.functions, State.after]
  rw [hcompiling, hcompiling, hctx, ← State.after_noting]
  exact .ok rfl rfl fun _ _ => rfl

/-- A local is declared in the same place on both sides. -/
private theorem parallels_declare (name : String) (slot : Slot) :
    Parallels same known Eq (declare name slot) (declare name slot) :=
  fun _ _ => .ok (List.append_nil _).symm rfl fun _ _ => rfl

/-- A name is taken on both sides or on neither. -/
private theorem parallels_bindVariable (name : String) (v : Variable) (span : Span) :
    Parallels same known Eq (bindVariable name v span) (bindVariable name v span) := by
  intro earlier st
  have hbind : ∀ st : State, bindVariable name v span st =
      (if st.bindings.isBoundHere name then report (.duplicateVariable name) span
        else pure ()) (st.bound name v) := fun _ => rfl
  -- Whether the name is taken is asked of the scopes, which the two states share.
  have hbindings : (st.after earlier).bindings = st.bindings := rfl
  have hbound : (st.after earlier).bound name v = (st.bound name v).after earlier := rfl
  rw [hbind, hbind, hbindings, hbound]
  split
  · exact parallels_report (.duplicateVariable name) span earlier (st.bound name v)
  · exact parallels_pure rfl (fun _ => rfl) earlier (st.bound name v)

/-- Opening a scope and closing it again keeps computations parallel. -/
private theorem Parallels.withVariables {x x' : Lower α} (h : x.Parallels same known R x') :
    Parallels same known R (withVariables x) (withVariables x') := by
  intro earlier st
  -- Opening a scope changes none of the reports.
  have hrun : Outcomes same known R earlier st.reports (x { st with bindings := [] :: st.bindings })
      (x' { st.after earlier with bindings := [] :: (st.after earlier).bindings }) :=
    h earlier { st with bindings := [] :: st.bindings }
  unfold Lower.withVariables
  dsimp only
  generalize x { st with bindings := [] :: st.bindings } = first at hrun ⊢
  generalize x' { st.after earlier with bindings := _ } = second at hrun ⊢
  cases hrun with
  | error e => exact .error e _ _
  | ok hds hR heq => exact .ok hds hR heq

/-- The scope of labels that is opened, and whether it is the innermost one when it is closed, do
    not depend on what was reported. -/
private theorem Parallels.withLabels {kind : ScopeKind} {x x' : LabelScope → Lower α}
    (h : ∀ scope, (x scope).Parallels same known R (x' scope)) :
    Parallels same known R (withLabels kind x) (withLabels kind x') := by
  intro earlier st
  have hlabels : ∀ s : State, (s.after earlier).labels = s.labels := fun _ => rfl
  unfold Lower.withLabels
  rw [hlabels]
  -- The scope of labels is entered and left alike, because both sides have the same labels.
  generalize st.labels.enter kind = entered
  obtain ⟨e | scope, labels⟩ := entered
  · exact .error e _ _
  · have hrun : Outcomes same known R earlier st.reports (x scope { st with labels })
        (x' scope { st.after earlier with labels }) := h scope earlier { st with labels }
    dsimp only
    generalize x scope { st with labels } = first at hrun
    generalize x' scope { st.after earlier with labels } = second at hrun
    cases hrun with
    | error e => exact .error e _ _
    | @ok a a' s ds hds hR heq =>
      simp only [hlabels]
      generalize s.labels.leave scope = left
      obtain ⟨e | u, labels⟩ := left
      · exact .error e _ _
      · exact .ok hds hR heq

end Lower

/-! ## Statements -/

variable {same known : Prop} {fc fc' : FunctionContext}

open Lower (parallels_pure parallels_throw parallels_report parallels_compiling parallels_declare
  parallels_bindVariable parallels_ofExcept)

/-- Any results are related. -/
def AnyResults {α : Type} (_ _ : α) : Prop := True

/-- A `return` that does not fit its function is reported, and what stands for it is the same if the
    contexts say so. -/
private theorem poison_parallels (hfc : fc.Parallels same fc') {problem : Problem}
    (hproblem : problem = .returnValueInVoidFunction ∨ problem = .missingReturnValue)
    (span : Span) :
    Lower.Parallels same known AnyResults
      (Lower.report problem span >>= fun _ => pure (poison fc))
      (Lower.report problem span >>= fun _ => pure (poison fc')) := by
  intro earlier st
  have hreport : ∀ (fc : FunctionContext) (st : State),
      (Lower.report problem span >>= fun _ => pure (poison fc) : Lower Node) st =
        .ok (poison fc) (st.noting [⟨problem, span⟩]) := fun _ _ => rfl
  rw [hreport, hreport, ← State.after_noting]
  refine .ok rfl trivial ?_
  rintro - (hsame | hclean)
  · rw [poison, poison, hfc.trapOnError hsame]
  · -- There is a report, so that the two nodes may differ.
    have hno := hclean _ (List.mem_singleton_self _)
    exact absurd hproblem (not_or.2 hno)

/-- Only a return that is poisoned can differ between the settings. -/
private theorem lowerReturn_parallels (hfc : fc.Parallels same fc') (value : Option Expr)
    (span : Span) :
    (lowerReturn fc value span).Parallels same known AnyResults (lowerReturn fc' value span) := by
  unfold lowerReturn
  rw [hfc.result]
  cases value with
  | none =>
    dsimp only
    split
    · exact parallels_pure trivial fun _ => rfl
    · exact poison_parallels hfc (.inr rfl) span
  | some e =>
    dsimp only
    split
    · exact poison_parallels hfc (.inl rfl) e.span
    · exact (parallels_compiling hfc _).bind_eq fun node => parallels_pure trivial fun _ => rfl

/-- A declarator does the same on both sides. -/
private theorem lowerDeclarator_parallels (hfc : fc.Parallels same fc') (isConst : Bool)
    (d : Declarator) :
    (lowerDeclarator fc isConst d).Parallels same known Eq (lowerDeclarator fc' isConst d) := by
  have hdeclare : (declareVariable fc isConst d).Parallels same known Eq
      (declareVariable fc' isConst d) := by
    unfold declareVariable
    refine (parallels_compiling hfc _).bind_eq fun r => ?_
    obtain ⟨initial, t⟩ := r
    dsimp only
    rw [hfc.width]
    refine (parallels_declare _ _).bind_eq fun index => ?_
    refine (parallels_bindVariable _ _ _).bind_eq fun _ => ?_
    split
    · exact parallels_pure rfl fun _ => rfl
    · exact parallels_pure rfl fun _ => rfl
    · exact parallels_pure rfl fun _ => rfl
  rw [lowerDeclarator_eq, lowerDeclarator_eq]
  split
  · exact (parallels_report _ _).bind_eq fun _ => hdeclare
  · exact hdeclare

/-- The declarators of a declaration do the same on both sides. -/
private theorem lowerDeclarators_parallels (hfc : fc.Parallels same fc') (isConst : Bool)
    (ds : List Declarator) :
    (lowerDeclarators fc isConst ds).Parallels same True Eq (lowerDeclarators fc' isConst ds) := by
  induction ds with
  | nil => exact parallels_pure rfl fun _ => rfl
  | cons d ds ih =>
    refine (lowerDeclarator_parallels hfc isConst d).bind_eq fun first => ?_
    exact ih.bind_eq fun rest => parallels_pure rfl fun _ => rfl

/-- The test of a clause is the same on both sides. -/
private theorem lowerTest_parallels (hfc : fc.Parallels same fc') (scope : LabelScope)
    (compared : Ty) (ordinal : Nat) (hasDefault : Bool) (test : Option Expr) (span : Span) :
    (lowerTest fc scope compared ordinal hasDefault test span).Parallels same known Eq
      (lowerTest fc' scope compared ordinal hasDefault test span) := by
  cases test with
  | some e => exact (parallels_compiling hfc _).bind_eq fun guard => parallels_pure rfl fun _ => rfl
  | none =>
    dsimp only [lowerTest]
    split
    · exact (parallels_report _ _).bind_eq fun _ => parallels_pure rfl fun _ => rfl
    · exact parallels_pure rfl fun _ => rfl

/-- What a clause is dispatched by. -/
def Case.head (c : Case) : Label × Option Node := (c.label, c.guard)

/-- Clauses that are dispatched by the same labels and guards. -/
def SameHeads (cases cases' : List Case) : Prop := cases'.map Case.head = cases.map Case.head

/-- Whether a switch has room in its table is decided by the guards of its clauses. -/
private theorem dispatchNode_parallels {cases cases' : List Case} (h : SameHeads cases cases')
    (heq : known → cases' = cases) (scope : LabelScope) (condition : Nat) (slot : Slot)
    (value : Node) :
    Lower.Parallels same known AnyResults
      (Lower.ofExcept (dispatchNode scope condition slot value cases))
      (Lower.ofExcept (dispatchNode scope condition slot value cases')) := by
  -- The table is made of the labels and the guards, and so is its fallback.
  have hguarded : ∀ cs : List Case,
      (cs.filterMap fun c => c.guard.map fun g => (c.label, g)) =
        (cs.map Case.head).filterMap fun h => h.2.map fun g => (h.1, g) := by
    intro cs
    rw [List.filterMap_map]
    rfl
  have hfallback : ∀ cs : List Case, (cs.any fun c => decide (c.label.kind = .fallback)) =
      (cs.map Case.head).any fun h => decide (h.1.kind = .fallback) := by
    intro cs
    rw [List.any_map]
    rfl
  unfold dispatchNode
  rw [hguarded, hguarded cases', hfallback, hfallback cases', h]
  dsimp only
  generalize selectNode condition slot 0 _ = index
  cases index with
  | error e => exact parallels_throw e
  | ok index =>
    refine parallels_pure trivial fun hknown => ?_
    rw [heq hknown]

/-- A jump asks for nothing but the labels in scope. -/
private theorem parallels_jump (target : LabelStack → Except Error Label) :
    Lower.Parallels same known AnyResults
      (do let label ← Lower.ofExcept (target (← get).labels); pure (Node.br label))
      (do let label ← Lower.ofExcept (target (← get).labels); pure (Node.br label)) := by
  intro earlier st
  have h : Lower.Parallels same known AnyResults
      (Lower.ofExcept (target st.labels) >>= fun label => pure (Node.br label))
      (Lower.ofExcept (target st.labels) >>= fun label => pure (Node.br label)) :=
    (parallels_ofExcept _).bind_eq fun label => parallels_pure trivial fun _ => rfl
  exact h earlier st

mutual

/-- Lowering a statement takes the same steps. The induction is on the statement. -/
theorem lower_parallels (hfc : fc.Parallels same fc') : (s : Stmt) →
    (lower fc s).Parallels same True AnyResults (lower fc' s)
  | .exprStmt _ e => by
    simp only [lower]
    exact (parallels_compiling hfc _).mono fun _ _ _ => trivial
  | .varDecl _ kind ds => by
    simp only [lower]
    refine (lowerDeclarators_parallels hfc _ ds).bind_eq fun sets => ?_
    exact parallels_pure trivial fun _ => rfl
  | .returnStmt span value => by
    simp only [lower]
    exact lowerReturn_parallels hfc value span
  | .ifStmt _ c t e => by
    simp only [lower]
    refine (parallels_compiling hfc _).bind_eq fun cn => ?_
    refine (lower_parallels hfc t).bind fun tn tn' _ => ?_
    refine (lowerOption_parallels hfc e).bind fun en en' _ => ?_
    -- Whether there is an `else` part shapes the node, and nothing else.
    cases en <;> cases en' <;> exact parallels_pure trivial fun h => by simp_all
  | .forStmt _ init c u body => by
    simp only [lower]
    refine Lower.Parallels.withVariables ?_
    refine (lowerOption_parallels hfc init).bind fun i i' _ => .withLabels fun scope => ?_
    refine (lowerOption_parallels hfc body).bind fun b b' _ => ?_
    refine (parallels_compiling hfc _).bind_eq fun cn => ?_
    refine (parallels_compiling hfc _).bind_eq fun un => ?_
    refine parallels_pure trivial ?_
    rintro ⟨⟨-, rfl⟩, rfl⟩
    rfl
  | .whileStmt _ c body => by
    simp only [lower]
    refine .withLabels fun scope => (lowerOption_parallels hfc body).bind fun b b' _ => ?_
    -- A body without code is left out of the node after all that the statement does is done.
    refine (parallels_compiling hfc _).bind_eq fun cn => parallels_pure trivial ?_
    rintro ⟨-, rfl⟩
    rfl
  | .doWhile _ body c => by
    simp only [lower]
    refine .withLabels fun scope => (lower_parallels hfc body).bind fun b b' _ => ?_
    refine (parallels_compiling hfc _).bind_eq fun cn => parallels_pure trivial ?_
    rintro ⟨-, rfl⟩
    rfl
  | .block _ ss => by
    simp only [lower]
    refine .withVariables ((lowerAll_parallels hfc ss).bind fun ns ns' _ => ?_)
    refine parallels_pure trivial ?_
    rintro ⟨-, rfl⟩
    rfl
  | .breakStmt _ => by
    simp only [lower]
    exact parallels_jump _
  | .continueStmt _ => by
    simp only [lower]
    exact parallels_jump _
  | .switchStmt _ d [] => by
    simp only [lower]
    exact (parallels_compiling hfc _).mono fun _ _ _ => trivial
  | .switchStmt _ d (clause :: clauses) => by
    have hclauses := fun scope compared =>
      lowerClauses_parallels hfc scope compared 0 false (clause :: clauses)
    simp only [lower]
    refine .withLabels fun scope => ?_
    rw [hfc.width]
    refine (parallels_compiling hfc _).bind_eq fun r => ?_
    obtain ⟨value, compared⟩ := r
    dsimp only
    refine (parallels_declare _ _).bind_eq fun condition => ?_
    refine (hclauses scope compared).withVariables.bind fun cases cases' hheads => ?_
    exact dispatchNode_parallels hheads And.right scope condition _ value
  | .empty _ => by
    simp only [lower]
    exact parallels_pure trivial fun _ => rfl
termination_by structural s => s

private theorem lowerOption_parallels (hfc : fc.Parallels same fc') : (s : Option Stmt) →
    (lowerOption fc s).Parallels same True AnyResults (lowerOption fc' s)
  | none => by
    simp only [lowerOption]
    exact parallels_pure trivial fun _ => rfl
  | some s => by
    simp only [lowerOption]
    refine (lower_parallels hfc s).bind fun n n' _ => parallels_pure trivial ?_
    rintro ⟨-, rfl⟩
    rfl
termination_by structural s => s

theorem lowerAll_parallels (hfc : fc.Parallels same fc') : (ss : List Stmt) →
    (lowerAll fc ss).Parallels same True AnyResults (lowerAll fc' ss)
  | [] => by
    simp only [lowerAll]
    exact parallels_pure trivial fun _ => rfl
  | s :: ss => by
    simp only [lowerAll]
    refine (lower_parallels hfc s).bind fun n n' _ => ?_
    refine (lowerAll_parallels hfc ss).bind fun ns ns' _ => parallels_pure trivial ?_
    rintro ⟨⟨-, rfl⟩, rfl⟩
    rfl
termination_by structural ss => ss

/-- Lowered clauses are dispatched alike, whatever their bodies are. -/
private theorem lowerClauses_parallels (hfc : fc.Parallels same fc') (scope : LabelScope)
    (compared : Ty) :
    (ordinal : Nat) → (hasDefault : Bool) → (clauses : List Clause) →
    (lowerClauses fc scope compared ordinal hasDefault clauses).Parallels same True SameHeads
      (lowerClauses fc' scope compared ordinal hasDefault clauses)
  | ordinal, hasDefault, [] => by
    simp only [lowerClauses]
    exact parallels_pure rfl fun _ => rfl
  | ordinal, hasDefault, .mk test body span :: clauses => by
    simp only [lowerClauses]
    refine (lowerTest_parallels hfc scope compared ordinal hasDefault test span).bind_eq fun r => ?_
    refine (lowerAll_parallels hfc body).bind fun ns ns' _ => ?_
    refine (lowerClauses_parallels hfc scope compared _ _ clauses).bind fun rest rest' hrest => ?_
    refine parallels_pure ?_ ?_
    -- The heads are told by the tests alone, so they agree whatever the bodies are.
    · rw [SameHeads, List.map_cons, List.map_cons, hrest]
      rfl
    · rintro ⟨⟨-, rfl⟩, rfl⟩
      rfl
termination_by structural _ _ clauses => clauses

end

/-! ## Functions -/

/-- The parameters are bound alike. -/
private theorem bindParams_parallels (span : Span) (index : Nat) (ps : List Param) :
    (bindParams span index ps).Parallels same True Eq (bindParams span index ps) := by
  induction ps generalizing index with
  | nil => exact parallels_pure rfl fun _ => rfl
  | cons p ps ih =>
    exact (parallels_bindVariable p.name ⟨index, p.ty, false⟩ span).bind_eq fun _ => ih (index + 1)

/-- The check at the end of a body looks at the labels, which both sides share. -/
private theorem finish_parallels (function : String) :
    (finish function).Parallels same True Eq (finish function) := by
  intro earlier st
  have h : Lower.Parallels same True Eq
      (if st.labels.depth ≠ 0 then throw (.unbalancedScopes function st.labels.depth)
        else pure () : Lower Unit)
      (if st.labels.depth ≠ 0 then throw (.unbalancedScopes function st.labels.depth)
        else pure ()) := by
    split
    · exact parallels_throw _
    · exact parallels_pure rfl fun _ => rfl
  exact h earlier st

/-- Lowering a function takes the same steps. -/
theorem lowerBody_parallels (hfc : fc.Parallels same fc') (f : Source.Function) :
    (lowerBody fc f).Parallels same True AnyResults (lowerBody fc' f) := by
  unfold lowerBody
  refine (bindParams_parallels f.span 0 f.params).bind_eq fun _ => ?_
  refine (lowerAll_parallels hfc f.body).bind fun ns ns' _ => ?_
  refine (finish_parallels f.name).bind_eq fun _ => parallels_pure trivial ?_
  rintro ⟨-, rfl⟩
  rfl

end Weir.Lowering
