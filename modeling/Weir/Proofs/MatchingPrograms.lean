import Weir.Lowering.Program
import Weir.Proofs.MatchingExpressions

/-!
# Programs with expressions replaced

If the expressions of a program are replaced by others that compile alike, the program is lowered
to the same module, or fails with the same error, and the same problems are reported in the same
order. Only the places of these problems may change.

## Key results

- `Lower.Matches`: two lowerings end alike from states that differ in the places of reports
- `lower_mapExprs`, `lowerFunction_mapExprs`: statements and functions with expressions replaced
- `lowerProgram_mapExprs`: programs with expressions replaced
-/

namespace Weir.Lowering

open Weir.Code (Label Local Node Slot)
open Weir.Source (Clause Declarator Expr Param Program Span Stmt Ty)

/-! ## Lowerings that match -/

/-- The two states are the same, up to the places of what was reported. -/
structure State.Matches (st st' : State) : Prop where
  labels : st'.labels = st.labels
  bindings : st'.bindings = st.bindings
  locals : st'.locals = st.locals
  problems : st'.reports.map Diagnostic.problem = st.reports.map Diagnostic.problem

namespace State

variable {st st' : State}

theorem Matches.refl (st : State) : st.Matches st := ⟨rfl, rfl, rfl, rfl⟩

/-- Matching states still match after reports of the same problems. -/
private theorem Matches.noting (h : st.Matches st') (ds es : List Diagnostic)
    (hds : es.map Diagnostic.problem = ds.map Diagnostic.problem) :
    (st.noting ds).Matches (st'.noting es) where
  labels := h.labels
  bindings := h.bindings
  locals := h.locals
  problems := by simp only [State.noting, List.map_append, h.problems, hds]

end State

/-- The two lowerings end alike: with the same result or the same error, in states that match. -/
inductive MatchingEnds {α : Type} :
    EStateM.Result Error State α → EStateM.Result Error State α → Prop
  | ok (a : α) {st st' : State} (h : st.Matches st') : MatchingEnds (.ok a st) (.ok a st')
  | error (e : Error) {st st' : State} (h : st.Matches st') :
    MatchingEnds (.error e st) (.error e st')

/-- From states that match the two lowerings end alike. -/
def Lower.Matches {α : Type} (x x' : Lower α) : Prop :=
  ∀ st st', st.Matches st' → MatchingEnds (x st) (x' st')

namespace Lower

variable {α β : Type} {fc : FunctionContext}

private theorem matches_pure (a : α) : Matches (pure a) (pure a) := fun _ _ h => .ok a h

private theorem matches_throw (e : Error) : Matches (throw e : Lower α) (throw e) :=
  fun _ _ h => .error e h

/-- A result that does not look at the state is a match. -/
private theorem matches_ofExcept (r : Except Error α) : Matches (ofExcept r) (ofExcept r) := by
  cases r with
  | ok a => exact matches_pure a
  | error e => exact matches_throw e

/-- Lowerings match step by step. -/
theorem Matches.bind {x x' : Lower α} {k k' : α → Lower β} (h : x.Matches x')
    (hk : ∀ a, (k a).Matches (k' a)) : (x >>= k).Matches (x' >>= k') := by
  intro st st' hst
  have hends := h st st' hst
  simp only [Bind.bind, EStateM.bind]
  generalize x st = r at hends
  generalize x' st' = r' at hends
  -- Where the first steps fail, they fail alike.
  cases hends with
  | ok a hst₁ => exact hk a _ _ hst₁
  | error e hst₁ => exact .error e hst₁

/-- What goes on from the labels in scope, which are the same. -/
private theorem matches_labels {k : LabelStack → Lower β}
    (hk : ∀ labels, (k labels).Matches (k labels)) :
    Matches (get >>= fun st => k st.labels) (get >>= fun st => k st.labels) := by
  intro st st' hst
  have hget : ∀ st : State, (get >>= fun st => k st.labels) st = k st.labels st := fun _ => rfl
  rw [hget, hget, hst.labels]
  exact hk st.labels st st' hst

private theorem matches_report (problem : Problem) (span span' : Span) :
    Matches (report problem span) (report problem span') :=
  fun _ _ h => .ok () (h.noting [⟨problem, span⟩] [⟨problem, span'⟩] rfl)

/-- What is compiled matches in every context, and the context is the same. -/
private theorem matches_compiling {f f' : Context → Reported α}
    (h : ∀ ctx, (f ctx).Matches (f' ctx)) :
    Matches (compiling fc f) (compiling fc f') := by
  intro st st' hst
  have hcompiling : ∀ (f : Context → Reported α) (st : State), compiling fc f st =
      .ok (f (fc.context st)).value (st.noting (f (fc.context st)).reports) := fun _ _ => rfl
  have hctx : fc.context st' = fc.context st := by
    simp only [FunctionContext.context, hst.bindings]
  rw [hcompiling, hcompiling, hctx, (h _).value]
  exact .ok _ (hst.noting _ _ (h _).problems)

/-- The same local is declared. -/
private theorem matches_declare (name : String) (slot : Slot) :
    Matches (declare name slot) (declare name slot) := by
  intro st st' hst
  have hdeclare : ∀ st : State,
      declare name slot st = .ok st.locals.length (st.declared name slot) := fun _ => rfl
  -- The numbers of locals are the same, for there are as many of them.
  have hlocals : (st'.declared name slot).locals = (st.declared name slot).locals := by
    simp only [State.declared, hst.locals]
  rw [hdeclare, hdeclare, hst.locals]
  exact .ok _ ⟨hst.labels, hst.bindings, hlocals, hst.problems⟩

/-- The same name is bound, or reported as taken. -/
private theorem matches_bindVariable (name : String) (v : Variable) (span : Span) :
    Matches (bindVariable name v span) (bindVariable name v span) := by
  intro st st' hst
  have hbind : ∀ st : State, bindVariable name v span st =
      (if st.bindings.isBoundHere name then report (.duplicateVariable name) span
        else pure ()) (st.bound name v) := fun _ => rfl
  have hbound : (st.bound name v).Matches (st'.bound name v) := by
    refine ⟨hst.labels, ?_, hst.locals, hst.problems⟩
    simp only [State.bound, hst.bindings]
  -- Whether the name is taken is asked of the scopes, which the two states share.
  rw [hbind, hbind, hst.bindings]
  split
  · exact matches_report _ span span _ _ hbound
  · exact matches_pure () _ _ hbound

/-- Lowerings match inside a scope of variables. -/
private theorem Matches.withVariables {x x' : Lower α} (h : x.Matches x') :
    (withVariables x).Matches (withVariables x') := by
  intro st st' hst
  have hopened : st.opened.Matches st'.opened :=
    ⟨hst.labels, by simp only [State.opened, hst.bindings], hst.locals, hst.problems⟩
  have hclosed : ∀ {s s' : State}, s.Matches s' → s.closed.Matches s'.closed := fun hs =>
    ⟨hs.labels, by simp only [State.closed, hs.bindings], hs.locals, hs.problems⟩
  -- The scope is closed in the end, whether the run succeeds or not.
  have hends : MatchingEnds (x { st with bindings := [] :: st.bindings })
      (x' { st' with bindings := [] :: st'.bindings }) := h _ _ hopened
  unfold Lower.withVariables
  dsimp only
  generalize x { st with bindings := [] :: st.bindings } = r at hends
  generalize x' { st' with bindings := [] :: st'.bindings } = r' at hends
  cases hends with
  | ok a hs => exact .ok a (hclosed hs)
  | error e hs => exact .error e (hclosed hs)

/-- Scopes of labels are opened and closed alike, or not at all. -/
private theorem Matches.withLabels {kind : ScopeKind} {x x' : LabelScope → Lower α}
    (h : ∀ scope, (x scope).Matches (x' scope)) :
    (withLabels kind x).Matches (withLabels kind x') := by
  intro st st' hst
  have hlabels : ∀ {s s' : State} (labels : LabelStack), s.Matches s' →
      State.Matches { s with labels } { s' with labels } := fun _ hs =>
    ⟨rfl, hs.bindings, hs.locals, hs.problems⟩
  unfold Lower.withLabels
  rw [hst.labels]
  generalize st.labels.enter kind = entered
  obtain ⟨e | scope, labels⟩ := entered
  · exact .error e (hlabels labels hst)
  -- The runs are inside the scope with the same labels, and close it alike.
  · have hends := h scope _ _ (hlabels labels hst)
    dsimp only
    generalize x scope { st with labels } = r at hends
    generalize x' scope { st' with labels } = r' at hends
    cases hends with
    | error e hs =>
      dsimp only
      rw [hs.labels]
      exact .error e (hlabels _ hs)
    | @ok a s s' hs =>
      dsimp only
      rw [hs.labels]
      generalize s.labels.leave scope = left
      obtain ⟨e | u, labels⟩ := left
      · exact .error e (hlabels labels hs)
      · exact .ok a (hlabels labels hs)

end Lower

open Lower (matches_pure matches_report matches_compiling matches_declare matches_bindVariable
  matches_ofExcept)

/-! ## Statements -/

section

variable {fc : FunctionContext} {f : Expr → Expr}

/-- A `return` statement matches if its value does. -/
private theorem lowerReturn_mapExprs (value : Option Expr) (span : Span)
    (h : ∀ e ∈ value.toList, Interchangeable e (f e)) :
    (lowerReturn fc value span).Matches (lowerReturn fc (value.map f) span) := by
  unfold lowerReturn
  cases value with
  | none =>
    dsimp only [Option.map_none]
    split
    · exact matches_pure _
    · exact (matches_report .missingReturnValue span span).bind fun _ => matches_pure _
  | some e =>
    have he : Interchangeable e (f e) := h e List.mem_cons_self
    dsimp only [Option.map_some]
    split
    · exact (matches_report .returnValueInVoidFunction _ _).bind fun _ => matches_pure _
    · exact (matches_compiling fun ctx => he.returned ctx fc.result).bind fun _ => matches_pure _

/-- A declaration matches if its initial value does. -/
private theorem lowerDeclarator_mapExprs (isConst : Bool) (d : Declarator)
    (h : ∀ e ∈ d.exprs, Interchangeable e (f e)) :
    (lowerDeclarator fc isConst d).Matches (lowerDeclarator fc isConst (d.mapExprs f)) := by
  -- Only the initial value is an expression; the name, the type and the local are the same.
  have hdeclare : (declareVariable fc isConst d).Matches
      (declareVariable fc isConst (d.mapExprs f)) := by
    apply (matches_compiling fun ctx => compileInitial_matches ctx d (declaredType? d) h).bind
    rintro ⟨initial, t⟩
    apply (matches_declare d.ident.name _).bind
    intro index
    apply (matches_bindVariable d.ident.name ⟨index, t, isConst⟩ d.ident.span).bind
    intro _
    split
    · exact matches_pure _
    · exact matches_pure _
    · exact matches_pure _
  rw [lowerDeclarator_eq, lowerDeclarator_eq]
  have hdeclared : (d.mapExprs f).declared = d.declared := rfl
  rw [hdeclared]
  split
  · exact (matches_report .voidValue _ _).bind fun _ => hdeclare
  · exact hdeclare

/-- Declarations match, one after the other. -/
private theorem lowerDeclarators_mapExprs (isConst : Bool) (ds : List Declarator)
    (h : ∀ e ∈ ds.flatMap Declarator.exprs, Interchangeable e (f e)) :
    (lowerDeclarators fc isConst ds).Matches
      (lowerDeclarators fc isConst (ds.map (Declarator.mapExprs f))) := by
  induction ds with
  | nil => exact matches_pure _
  | cons d ds ih =>
    rw [List.flatMap_cons, List.forall_mem_append] at h
    apply (lowerDeclarator_mapExprs isConst d h.1).bind
    intro first
    exact (ih h.2).bind fun rest => matches_pure _

/-- The test of a clause matches if its expression does. -/
private theorem lowerTest_mapExprs (scope : LabelScope) (compared : Ty) (ordinal : Nat)
    (hasDefault : Bool) (test : Option Expr) (span : Span)
    (h : ∀ e ∈ test.toList, Interchangeable e (f e)) :
    (lowerTest fc scope compared ordinal hasDefault test span).Matches
      (lowerTest fc scope compared ordinal hasDefault (test.map f) span) := by
  cases test with
  | some e =>
    have he : Interchangeable e (f e) := h e List.mem_cons_self
    exact (matches_compiling fun ctx => he.guard ctx compared).bind fun guard => matches_pure _
  | none =>
    dsimp only [Option.map_none, lowerTest]
    split
    · exact (matches_report .duplicateDefault span span).bind fun _ => matches_pure _
    · exact matches_pure _

/-- A jump goes where the labels in scope say. -/
private theorem jump_matches (target : LabelStack → Except Error Label) :
    Lower.Matches
      (get >>= fun st => Lower.ofExcept (target st.labels) >>= fun label => pure (Node.br label))
      (get >>= fun st => Lower.ofExcept (target st.labels) >>= fun label => pure (Node.br label)) :=
  Lower.matches_labels (k := fun labels => Lower.ofExcept (target labels) >>= fun label =>
    pure (Node.br label)) fun labels => (matches_ofExcept (target labels)).bind fun _ =>
      matches_pure _

mutual

/-- A statement whose expressions are replaced is lowered alike. The induction is on the
    statement. -/
theorem lower_mapExprs : (s : Stmt) → (∀ e ∈ s.exprs, Interchangeable e (f e)) →
    (lower fc s).Matches (lower fc (s.mapExprs f))
  | .exprStmt _ e, h => by
    simp only [Stmt.exprs, List.forall_mem_singleton] at h
    simp only [Stmt.mapExprs, lower]
    exact matches_compiling h.discarded
  | .varDecl _ kind ds, h => by
    simp only [Stmt.exprs] at h
    simp only [Stmt.mapExprs, lower]
    exact (lowerDeclarators_mapExprs _ ds h).bind fun sets => matches_pure _
  | .returnStmt span value, h => by
    simp only [Stmt.exprs] at h
    simp only [Stmt.mapExprs, lower]
    exact lowerReturn_mapExprs value span h
  | .ifStmt _ c t e, h => by
    simp only [Stmt.exprs, List.forall_mem_cons, List.forall_mem_append] at h
    obtain ⟨hc, ht, he⟩ := h
    simp only [Stmt.mapExprs, lower]
    apply (matches_compiling hc.condition).bind
    intro cn
    apply (lower_mapExprs t ht).bind
    intro tn
    apply (lowerOption_mapExprs e he).bind
    intro en
    -- The two have branches in the same places.
    cases en with
    | none => exact matches_pure _
    | some en => exact matches_pure _
  | .forStmt _ init c u body, h => by
    simp only [Stmt.exprs, List.forall_mem_append] at h
    obtain ⟨⟨⟨hinit, hc⟩, hu⟩, hbody⟩ := h
    simp only [Stmt.mapExprs, lower]
    apply Lower.Matches.withVariables
    apply (lowerOption_mapExprs init hinit).bind
    intro i
    apply Lower.Matches.withLabels
    intro scope
    apply (lowerOption_mapExprs body hbody).bind
    intro b
    apply (matches_compiling fun ctx => mapM_matches c fun e he => (hc e he).condition ctx).bind
    intro cn
    apply (matches_compiling fun ctx => mapM_matches u fun e he => (hu e he).discarded ctx).bind
    exact fun un => matches_pure _
  | .whileStmt _ c body, h => by
    simp only [Stmt.exprs, List.forall_mem_cons] at h
    simp only [Stmt.mapExprs, lower]
    apply Lower.Matches.withLabels
    intro scope
    apply (lowerOption_mapExprs body h.2).bind
    intro b
    exact (matches_compiling h.1.condition).bind fun cn => matches_pure _
  | .doWhile _ body c, h => by
    simp only [Stmt.exprs, List.forall_mem_append, List.forall_mem_singleton] at h
    simp only [Stmt.mapExprs, lower]
    apply Lower.Matches.withLabels
    intro scope
    apply (lower_mapExprs body h.1).bind
    intro b
    exact (matches_compiling h.2.condition).bind fun cn => matches_pure _
  | .block _ ss, h => by
    simp only [Stmt.exprs] at h
    simp only [Stmt.mapExprs, lower]
    apply Lower.Matches.withVariables
    exact (lowerAll_mapExprs ss h).bind fun nodes => matches_pure _
  | .breakStmt _, _ => by
    simp only [Stmt.mapExprs, lower]
    exact jump_matches LabelStack.breakTarget
  | .continueStmt _, _ => by
    simp only [Stmt.mapExprs, lower]
    exact jump_matches LabelStack.continueTarget
  | .switchStmt _ d [], h => by
    simp only [Stmt.exprs, List.forall_mem_cons] at h
    simp only [Stmt.mapExprs, Clause.mapExprsAll, lower]
    exact matches_compiling h.1.dropped
  | .switchStmt _ d (clause :: clauses), h => by
    simp only [Stmt.exprs, List.forall_mem_cons] at h
    -- The statement about all clauses is taken before the first one is taken apart.
    have hclauses := fun scope compared =>
      lowerClauses_mapExprs scope compared 0 false (clause :: clauses) h.2
    obtain ⟨test, body, span⟩ := clause
    simp only [Stmt.mapExprs, Clause.mapExprsAll, lower] at hclauses ⊢
    apply Lower.Matches.withLabels
    intro scope
    apply (matches_compiling h.1.discriminant).bind
    rintro ⟨value, compared⟩
    apply (matches_declare _ _).bind
    intro condition
    apply (hclauses scope compared).withVariables.bind
    exact fun cases => matches_ofExcept _
  | .empty _, _ => by
    simp only [Stmt.mapExprs, lower]
    exact matches_pure _
termination_by structural s => s

private theorem lowerOption_mapExprs : (s : Option Stmt) →
    (∀ e ∈ Stmt.exprsOption s, Interchangeable e (f e)) →
    (lowerOption fc s).Matches (lowerOption fc (Stmt.mapExprsOption f s))
  | none, _ => by
    simp only [Stmt.mapExprsOption, lowerOption]
    exact matches_pure _
  | some s, h => by
    simp only [Stmt.exprsOption] at h
    simp only [Stmt.mapExprsOption, lowerOption]
    exact (lower_mapExprs s h).bind fun node => matches_pure _
termination_by structural s => s

private theorem lowerAll_mapExprs : (ss : List Stmt) →
    (∀ e ∈ Stmt.exprsAll ss, Interchangeable e (f e)) →
    (lowerAll fc ss).Matches (lowerAll fc (Stmt.mapExprsAll f ss))
  | [], _ => by
    simp only [Stmt.mapExprsAll, lowerAll]
    exact matches_pure _
  | s :: ss, h => by
    simp only [Stmt.exprsAll, List.forall_mem_append] at h
    simp only [Stmt.mapExprsAll, lowerAll]
    apply (lower_mapExprs s h.1).bind
    intro node
    exact (lowerAll_mapExprs ss h.2).bind fun nodes => matches_pure _
termination_by structural ss => ss

private theorem lowerClauses_mapExprs (scope : LabelScope) (compared : Ty) :
    (ordinal : Nat) → (hasDefault : Bool) → (clauses : List Clause) →
    (∀ e ∈ Clause.exprsAll clauses, Interchangeable e (f e)) →
    (lowerClauses fc scope compared ordinal hasDefault clauses).Matches
      (lowerClauses fc scope compared ordinal hasDefault (Clause.mapExprsAll f clauses))
  | ordinal, hasDefault, [], _ => by
    simp only [Clause.mapExprsAll, lowerClauses]
    exact matches_pure _
  | ordinal, hasDefault, .mk test body span :: clauses, h => by
    simp only [Clause.exprsAll, List.forall_mem_append] at h
    obtain ⟨⟨htest, hbody⟩, hrest⟩ := h
    simp only [Clause.mapExprsAll, lowerClauses, Option.isNone_map]
    apply (lowerTest_mapExprs scope compared ordinal hasDefault test span htest).bind
    rintro ⟨label, guard⟩
    apply (lowerAll_mapExprs body hbody).bind
    intro nodes
    apply (lowerClauses_mapExprs scope compared _ _ clauses hrest).bind
    exact fun rest => matches_pure _
termination_by structural _ _ clauses => clauses

end

end

/-! ## Functions -/

section

variable {fc : FunctionContext} {f : Expr → Expr}

/-- Parameters are bound alike. -/
private theorem bindParams_matches (span : Span) (index : Nat) (ps : List Param) :
    (bindParams span index ps).Matches (bindParams span index ps) := by
  induction ps generalizing index with
  | nil => exact matches_pure _
  | cons p ps ih =>
    apply (matches_bindVariable p.name ⟨index, p.ty, false⟩ span).bind
    exact fun _ => ih (index + 1)

/-- That all scopes are closed is asked of the labels, which are the same. -/
private theorem finish_matches (function : String) :
    (finish function).Matches (finish function) := by
  apply Lower.matches_labels (k := fun labels =>
    if labels.depth ≠ 0 then throw (.unbalancedScopes function labels.depth) else pure ())
  intro labels
  split
  · exact Lower.matches_throw _
  · exact matches_pure ()

/-- The body of a function matches if its expressions do. -/
private theorem lowerBody_mapExprs (g : Source.Function)
    (h : ∀ e ∈ g.exprs, Interchangeable e (f e)) :
    (lowerBody fc g).Matches (lowerBody fc (g.mapExprs f)) := by
  apply (bindParams_matches g.span 0 g.params).bind
  intro _
  apply (lowerAll_mapExprs g.body h).bind
  intro nodes
  exact (finish_matches g.name).bind fun _ => matches_pure _

/-- A result with what was reported on the way to it, without the places. -/
def outline {α : Type} (r : α × List Diagnostic) : α × List Problem :=
  (r.1, r.2.map Diagnostic.problem)

/-- A function whose expressions are replaced is lowered to the same function, with the same
    problems. -/
theorem lowerFunction_mapExprs (settings : Settings) (functions : FunctionTable)
    (g : Source.Function) (h : ∀ e ∈ g.exprs, Interchangeable e (f e)) :
    (lowerFunction settings functions (g.mapExprs f)).map outline =
      (lowerFunction settings functions g).map outline := by
  have hbody : (lowerBody ⟨settings, functions, g.result⟩ g).Matches
      (lowerBody ⟨settings, functions, g.result⟩ (g.mapExprs f)) := lowerBody_mapExprs g h
  have hends := hbody { locals := g.params.map fun p => ⟨p.name, p.ty.slot settings.width⟩ } _
    (.refl _)
  unfold lowerFunction
  simp only [Source.Function.mapExprs] at hends ⊢
  generalize lowerBody ⟨settings, functions, g.result⟩ g _ = r at hends ⊢
  generalize lowerBody ⟨settings, functions, g.result⟩ _ _ = r' at hends ⊢
  cases hends with
  | ok body hst => simp only [Except.map, outline, hst.locals, hst.problems]
  | error e hst => rfl

end

/-! ## Programs -/

/-- A lowered program with what was reported for it, without the places. -/
def Lowered.outline (r : Lowered) : Code.Module × List Problem :=
  (r.module, r.reports.map Diagnostic.problem)

/-- What is made of each result may be made of it after all others. -/
private theorem map_mapM {α β γ : Type} {x : α → Except Error β} {k : β → γ} (as : List α) :
    (as.mapM x).map (List.map k) = as.mapM fun a => (x a).map k := by
  induction as with
  | nil => rfl
  | cons a as ih =>
    rw [List.mapM_cons, List.mapM_cons, ← ih]
    cases x a with
    | error e => rfl
    | ok b => cases as.mapM x <;> rfl

/-- Lists are lowered alike if their members are. -/
private theorem mapM_map_congr {α β γ : Type} {x : α → Except Error β} {f : α → α} {k : β → γ}
    (as : List α) (h : ∀ a ∈ as, (x (f a)).map k = (x a).map k) :
    ((as.map f).mapM x).map (List.map k) = (as.mapM x).map (List.map k) := by
  rw [map_mapM, map_mapM]
  induction as with
  | nil => rfl
  | cons a as ih =>
    rw [List.forall_mem_cons] at h
    rw [List.map_cons, List.mapM_cons, List.mapM_cons, h.1, ih h.2]

/-- A program whose expressions are replaced by others that compile alike is lowered to the same
    module or fails with the same error, and the same problems are reported. -/
theorem lowerProgram_mapExprs (settings : Settings) {f : Expr → Expr} (p : Program)
    (h : ∀ e ∈ p.exprs, Interchangeable e (f e)) :
    (lowerProgram settings (p.mapExprs f)).map Lowered.outline =
      (lowerProgram settings p).map Lowered.outline := by
  have hcallables : callables (p.mapExprs f) = callables p := by
    simp only [callables, Program.mapExprs, List.mapIdx_eq_zipIdx_map, List.zipIdx_map,
      List.map_map]
    rfl
  unfold lowerProgram
  rw [hcallables]
  generalize enterAll {} (callables p) = entered
  obtain ⟨functions, duplicates⟩ := entered
  -- The module and the problems are made of what the functions are lowered to.
  have hoverall : ∀ lowered : Except Error (List (Code.Function × List Diagnostic)),
      (lowered >>= fun lowered => pure ({
          module := ⟨p.imports.map (lowerImport settings), lowered.map (·.1)⟩
          reports := duplicates ++ lowered.flatMap (·.2) } : Lowered)).map Lowered.outline =
        (lowered.map (List.map outline)).map fun parts =>
          ((⟨p.imports.map (lowerImport settings), parts.map (·.1)⟩ : Code.Module),
            duplicates.map Diagnostic.problem ++ parts.flatMap (·.2)) := by
    intro lowered
    cases lowered with
    | error e => rfl
    | ok parts =>
      simp only [bind, Except.bind, pure, Except.pure, Except.map, Lowered.outline, outline,
        List.map_append, List.map_map, List.map_flatMap, List.flatMap_map, Function.comp_def]
  have hfunctions : ((p.functions.map (Source.Function.mapExprs f)).mapM
      (lowerFunction settings functions)).map (List.map outline) =
      (p.functions.mapM (lowerFunction settings functions)).map (List.map outline) := by
    apply mapM_map_congr
    intro g hg
    exact lowerFunction_mapExprs settings functions g fun e he =>
      h e (List.mem_flatMap.2 ⟨g, hg, he⟩)
  dsimp only [Program.mapExprs]
  rw [hoverall, hoverall, hfunctions]

end Weir.Lowering
