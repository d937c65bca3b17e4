import Weir.Lowering.Program
import Weir.Proofs.ResolvedExpressions

/-!
# Programs with `usize` resolved

Lowering a program for pointers of some width is the same as replacing every `usize` in it by the
unsigned integer of that width first, and lowering what is left: the module is the same, or the
error, and so are the problems in order and place, once the same replacement is made in them. After
the replacement the width no longer matters, so a program without `usize` is lowered alike for every
width.

## Key results

- `Lower.Mirrors`: one lowering mirrors another one with its types resolved
- `lower_mirrors`, `lowerFunction_resolve`: lowering statements and functions
- `lowerProgram_resolve`: lowering a program with its types resolved, where `Ty.resolve_eq_iff` says
  what a type is resolved to
-/

namespace Weir.Lowering

open Weir.Code (Label Local Slot)
open Weir.Source (Clause Declarator Expr Param PointerWidth Program Span Stmt Ty)

/-! ## Lowerings side by side -/

/-- The state with the types of variables and reports replaced. -/
def State.mapTypes (f : Ty → Ty) (st : State) : State :=
  { st with
    bindings := st.bindings.mapTypes f
    reports := st.reports.map (Diagnostic.mapTypes f) }

@[simp] theorem State.mapTypes_noting {f : Ty → Ty} (st : State) (ds : List Diagnostic) :
    (st.noting ds).mapTypes f = (st.mapTypes f).noting (ds.map (Diagnostic.mapTypes f)) := by
  simp only [State.mapTypes, State.noting, List.map_append]

/-- The end of a lowering with its types resolved, and its result taken by `g`. -/
def mirrored {α β : Type} (w : PointerWidth) (g : α → β) :
    EStateM.Result Error State α → EStateM.Result Error State β
  | .ok a st => .ok (g a) (st.mapTypes (Ty.resolve w))
  | .error e st => .error e (st.mapTypes (Ty.resolve w))

/-- Where the types of the state are resolved, the second lowering ends as the first one does, up
    to `g` and with types resolved. -/
def Lower.Mirrors {α β : Type} (w : PointerWidth) (g : α → β) (x : Lower α) (x' : Lower β) : Prop :=
  ∀ st, x' (st.mapTypes (Ty.resolve w)) = mirrored w g (x st)

/-- The second function context is the first one with its types resolved for the width that it
    has. -/
structure FunctionContext.Mirrors (w : PointerWidth) (fc fc' : FunctionContext) : Prop where
  width : fc.settings.width = w
  trapOnError : fc'.settings.trapOnError = fc.settings.trapOnError
  functions : fc'.functions = fc.functions.mapTypes (Ty.resolve w)
  result : fc'.result = fc.result.resolve w

namespace Lower

variable {α β γ δ : Type} {w : PointerWidth} {fc fc' : FunctionContext}

/-- What a computation yields without a look at the state is replaced in its result only. -/
private theorem mirrors_pure (g : α → β) (a : α) : Mirrors w g (pure a) (pure (g a)) :=
  fun _ => rfl

private theorem mirrors_throw (g : α → β) (e : Error) : Mirrors w g (throw e) (throw e) :=
  fun _ => rfl

/-- A check that may fail is the same with the types replaced. -/
private theorem mirrors_ofExcept (r : Except Error α) : Mirrors w id (ofExcept r) (ofExcept r) := by
  intro st
  cases r <;> rfl

/-- The state that is read has its types replaced. -/
private theorem mirrors_get : Mirrors w (State.mapTypes (Ty.resolve w)) get get :=
  fun _ => rfl

/-- Computations that run one after the other mirror those that mirror them. -/
theorem Mirrors.bind {g : α → β} {g' : γ → δ} {x : Lower α} {x' : Lower β} {k : α → Lower γ}
    {k' : β → Lower δ} (h : x.Mirrors w g x') (hk : ∀ a, (k a).Mirrors w g' (k' (g a))) :
    (x >>= k).Mirrors w g' (x' >>= k') := by
  intro st
  have hbind : ∀ {ε ζ : Type} (y : Lower ε) (j : ε → Lower ζ) (st : State),
      (y >>= j) st = match y st with
        | .ok a st => j a st
        | .error e st => .error e st := by
    intro ε ζ y j st
    simp only [Bind.bind, EStateM.bind]
    cases y st <;> rfl
  rw [hbind, hbind, h st]
  cases x st with
  | ok a st' => exact hk a st'
  | error e st' => rfl

/-- A report mirrors the report of the problem with its types resolved. -/
private theorem mirrors_report (problem : Problem) (span : Span) :
    Mirrors w id (report problem span) (report (problem.mapTypes (Ty.resolve w)) span) := by
  intro st
  have hreport : ∀ (problem : Problem) (st : State),
      report problem span st = .ok () (st.noting [⟨problem, span⟩]) := fun _ _ => rfl
  rw [hreport, hreport, mirrored, State.mapTypes_noting]
  rfl

/-- What is compiled mirrors in the variables in scope. -/
private theorem mirrors_compiling (hfc : fc.Mirrors w fc') {g : α → β} {f : Context → Reported α}
    {f' : Context → Reported β}
    (h : ∀ {ctx ctx'}, ctx.Mirrors w ctx' → (f ctx).Mirrors w g (f' ctx')) :
    Mirrors w g (compiling fc f) (compiling fc' f') := by
  intro st
  have hcompiling : ∀ {ε : Type} (fc : FunctionContext) (f : Context → Reported ε) (st : State),
      compiling fc f st = .ok (f (fc.context st)).value (st.noting (f (fc.context st)).reports) :=
    fun _ _ _ => rfl
  have hctx : (fc.context st).Mirrors w (fc'.context (st.mapTypes (Ty.resolve w))) :=
    ⟨hfc.width, hfc.functions, rfl⟩
  rw [hcompiling, hcompiling, mirrored, State.mapTypes_noting, (h hctx).value, (h hctx).reports]

/-- A local is declared by its slot, which does not change. -/
private theorem mirrors_declare (name : String) (slot : Slot) :
    Mirrors w id (declare name slot) (declare name slot) :=
  fun _ => rfl

/-- A name is bound, or reported as taken, whatever the types. -/
private theorem mirrors_bindVariable (name : String) (v : Variable) (span : Span) :
    Mirrors w id (bindVariable name v span)
      (bindVariable name (v.mapTypes (Ty.resolve w)) span) := by
  -- Names are looked up without regard to the types that they are bound to.
  have hhere : ∀ scopes : Variables,
      (scopes.mapTypes (Ty.resolve w)).isBoundHere name = scopes.isBoundHere name := by
    intro scopes
    cases scopes with
    | nil => rfl
    | cons scope scopes =>
      have hlookup := lookup_map (Variable.mapTypes (Ty.resolve w)) scope name
      simp only [Variables.mapTypes, List.map_cons, Variables.isBoundHere, hlookup,
        Option.isSome_map]
  have hset : ∀ st : State, Mirrors w id
      (set { st with bindings := st.bindings.bind name v })
      (set { st.mapTypes (Ty.resolve w) with
        bindings := (st.mapTypes (Ty.resolve w)).bindings.bind name
          (v.mapTypes (Ty.resolve w)) }) := by
    intro st _
    simp only [State.mapTypes, Variables.mapTypes]
    cases st.bindings <;> rfl
  refine mirrors_get.bind fun st => (hset st).bind fun _ => ?_
  have hhere : (st.mapTypes (Ty.resolve w)).bindings.isBoundHere name =
      st.bindings.isBoundHere name := hhere st.bindings
  rw [hhere]
  split
  · exact mirrors_report (.duplicateVariable name) span
  · exact mirrors_pure id ()

/-- Opening and closing a scope of variables does not look at types. -/
private theorem Mirrors.withVariables {g : α → β} {x : Lower α} {x' : Lower β}
    (h : x.Mirrors w g x') :
    Mirrors w g (withVariables x) (withVariables x') := by
  intro st
  have hrun : x' (st.mapTypes (Ty.resolve w)).opened = mirrored w g (x st.opened) := h st.opened
  have hclosed : ∀ s : State,
      (s.mapTypes (Ty.resolve w)).closed = s.closed.mapTypes (Ty.resolve w) := by
    intro s
    simp only [State.mapTypes, State.closed, Variables.mapTypes, List.map_tail]
  have hwith : ∀ {ε : Type} (y : Lower ε) (st : State),
      Lower.withVariables y st = match y st.opened with
        | .ok a s => .ok a s.closed
        | .error e s => .error e s.closed := fun _ _ => rfl
  rw [hwith, hwith, hrun]
  cases x st.opened with
  | ok a s => exact congrArg (EStateM.Result.ok (g a)) (hclosed s)
  | error e s => exact congrArg (EStateM.Result.error e) (hclosed s)

/-- Label scopes know nothing of types. -/
private theorem Mirrors.withLabels {kind : ScopeKind} {g : α → β} {x : LabelScope → Lower α}
    {x' : LabelScope → Lower β} (h : ∀ scope, (x scope).Mirrors w g (x' scope)) :
    Mirrors w g (withLabels kind x) (withLabels kind x') := by
  intro st
  have hlabels : ∀ s : State, (s.mapTypes (Ty.resolve w)).labels = s.labels := fun _ => rfl
  unfold Lower.withLabels
  rw [hlabels]
  -- The labels are the same on both sides, so both enter the same scope and leave it alike.
  generalize st.labels.enter kind = entered
  obtain ⟨e | scope, labels⟩ := entered
  · rfl
  · have hrun : x' scope { st.mapTypes (Ty.resolve w) with labels } =
        mirrored w g (x scope { st with labels }) := h scope { st with labels }
    simp only [hrun]
    cases x scope { st with labels } with
    | error e s => rfl
    | ok a s =>
      simp only [mirrored, hlabels]
      generalize s.labels.leave scope = left
      obtain ⟨e | u, labels⟩ := left <;> rfl

end Lower

/-! ## Statements -/

variable {w : PointerWidth} {fc fc' : FunctionContext}

open Lower (mirrors_pure mirrors_throw mirrors_report mirrors_compiling mirrors_declare
  mirrors_bindVariable mirrors_ofExcept mirrors_get)

/-- What stands for a poisoned return is decided by the settings. -/
private theorem poison_mirrors (hfc : fc.Mirrors w fc') : poison fc' = poison fc := by
  rw [poison, poison, hfc.trapOnError]

/-- A return is checked against the result type with `usize` resolved. -/
private theorem lowerReturn_mirrors (hfc : fc.Mirrors w fc') (value : Option Expr) (span : Span) :
    (lowerReturn fc value span).Mirrors w id
      (lowerReturn fc' (value.map (Expr.mapTypes (Ty.resolve w))) span) := by
  unfold lowerReturn
  rw [hfc.result, Ty.isVoid_resolve, poison_mirrors hfc]
  cases value with
  | none =>
    dsimp only [Option.map_none]
    split
    · exact mirrors_pure id _
    · exact (mirrors_report .missingReturnValue span).bind fun _ => mirrors_pure id _
  | some e =>
    dsimp only [Option.map_some]
    rw [span_mapTypes]
    split
    · exact (mirrors_report .returnValueInVoidFunction _).bind fun _ => mirrors_pure id _
    · refine Lower.Mirrors.bind (g := id) ?_ fun node => mirrors_pure id _
      refine mirrors_compiling hfc fun hctx => ?_
      have h := compileReturned_mirrors hctx e fc.result
      rwa [compileReturned, compileReturned, span_mapTypes] at h

/-- A variable is declared with its type resolved. -/
private theorem lowerDeclarator_mirrors (hfc : fc.Mirrors w fc') (isConst : Bool)
    (d : Declarator) :
    (lowerDeclarator fc isConst d).Mirrors w id
      -- A declaration looks at its types in two places: whether one is `void`, and which slot it
      -- has.
      (lowerDeclarator fc' isConst (d.mapTypes (Ty.resolve w))) := by
  have hvoid : (d.mapTypes (Ty.resolve w)).declared = some .void ↔ d.declared = some .void := by
    simp only [Declarator.mapTypes, Option.map_eq_some_iff, Ty.resolve_eq_void, exists_eq_right]
  have htype : declaredType? (d.mapTypes (Ty.resolve w)) =
      (declaredType? d).map (Ty.resolve w) := by
    simp only [declaredType?, hvoid]
    split <;> rfl
  have hdeclare : (declareVariable fc isConst d).Mirrors w id
      (declareVariable fc' isConst (d.mapTypes (Ty.resolve w))) := by
    unfold declareVariable
    rw [htype]
    refine (mirrors_compiling hfc fun hctx => compileInitial_mirrors hctx d _).bind fun r => ?_
    obtain ⟨initial, t⟩ := r
    have hslot : (t.resolve w).slot fc'.settings.width = t.slot fc.settings.width := by
      rw [hfc.width, Ty.slot_of_resolve]
    dsimp only [Prod.map]
    rw [hslot]
    refine (mirrors_declare _ _).bind fun index => ?_
    refine (mirrors_bindVariable _ ⟨index, t, isConst⟩ _).bind fun _ => ?_
    dsimp only [id]
    split
    · exact mirrors_pure id _
    · exact mirrors_pure id _
    · exact mirrors_pure id _
  rw [lowerDeclarator_eq, lowerDeclarator_eq]
  by_cases h : d.declared = some .void
  · rw [if_pos h, if_pos (hvoid.2 h)]
    exact (mirrors_report .voidValue _).bind fun _ => hdeclare
  · rw [if_neg h, if_neg fun h' => h (hvoid.1 h')]
    exact hdeclare

/-- The declarators of a declaration mirror one another in turn. -/
private theorem lowerDeclarators_mirrors (hfc : fc.Mirrors w fc') (isConst : Bool)
    (ds : List Declarator) :
    (lowerDeclarators fc isConst ds).Mirrors w id
      (lowerDeclarators fc' isConst (ds.map (Declarator.mapTypes (Ty.resolve w)))) := by
  induction ds with
  | nil => exact mirrors_pure id _
  | cons d ds ih =>
    refine (lowerDeclarator_mirrors hfc isConst d).bind fun first => ?_
    exact ih.bind fun rest => mirrors_pure id _

/-- The value of a clause is converted to the type that is compared, resolved. -/
private theorem lowerTest_mirrors (hfc : fc.Mirrors w fc') (scope : LabelScope) (compared : Ty)
    (ordinal : Nat) (hasDefault : Bool) (test : Option Expr) (span : Span) :
    (lowerTest fc scope compared ordinal hasDefault test span).Mirrors w id
      (lowerTest fc' scope (compared.resolve w) ordinal hasDefault
        (test.map (Expr.mapTypes (Ty.resolve w))) span) := by
  cases test with
  | some e =>
    refine Lower.Mirrors.bind (g := id) ?_ fun guard => mirrors_pure id _
    exact mirrors_compiling hfc fun hctx => compileGuard_mirrors hctx compared e
  | none =>
    dsimp only [Option.map_none, lowerTest]
    split
    · exact (mirrors_report .duplicateDefault span).bind fun _ => mirrors_pure id _
    · exact mirrors_pure id _

mutual

/-- Lowering a statement with its types resolved yields the same node. The induction is on the
    statement. -/
theorem lower_mirrors (hfc : fc.Mirrors w fc') : (s : Stmt) →
    (lower fc s).Mirrors w id (lower fc' (s.mapTypes (Ty.resolve w)))
  | .exprStmt _ e => by
    simp only [Stmt.mapTypes, lower]
    exact mirrors_compiling hfc fun hctx => compileDiscarded_mirrors hctx e
  | .varDecl _ kind ds => by
    simp only [Stmt.mapTypes, lower]
    exact (lowerDeclarators_mirrors hfc _ ds).bind fun sets => mirrors_pure id _
  | .returnStmt span value => by
    simp only [Stmt.mapTypes, lower]
    exact lowerReturn_mirrors hfc value span
  | .ifStmt _ c t e => by
    simp only [Stmt.mapTypes, lower]
    refine (mirrors_compiling hfc fun hctx => compileCondition_mirrors hctx c).bind fun cn => ?_
    refine (lower_mirrors hfc t).bind fun tn => ?_
    refine (lowerOption_mirrors hfc e).bind fun en => ?_
    cases en with
    | none => exact mirrors_pure id _
    | some en => exact mirrors_pure id _
  | .forStmt _ init c u body => by
    simp only [Stmt.mapTypes, lower]
    refine Lower.Mirrors.withVariables ?_
    refine (lowerOption_mirrors hfc init).bind fun i => .withLabels fun scope => ?_
    refine (lowerOption_mirrors hfc body).bind fun b => ?_
    refine Lower.Mirrors.bind (g := id) ?_ fun cn => ?_
    · exact mirrors_compiling hfc fun hctx =>
        mapM_mirrors (fun e => compileCondition_mirrors hctx e) c
    refine Lower.Mirrors.bind (g := id) ?_ fun un => mirrors_pure id _
    exact mirrors_compiling hfc fun hctx =>
      mapM_mirrors (fun e => compileDiscarded_mirrors hctx e) u
  | .whileStmt _ c body => by
    simp only [Stmt.mapTypes, lower]
    refine .withLabels fun scope => (lowerOption_mirrors hfc body).bind fun b => ?_
    refine (mirrors_compiling hfc fun hctx => compileCondition_mirrors hctx c).bind fun cn => ?_
    exact mirrors_pure id _
  | .doWhile _ body c => by
    simp only [Stmt.mapTypes, lower]
    refine .withLabels fun scope => (lower_mirrors hfc body).bind fun b => ?_
    refine (mirrors_compiling hfc fun hctx => compileCondition_mirrors hctx c).bind fun cn => ?_
    exact mirrors_pure id _
  | .block _ ss => by
    simp only [Stmt.mapTypes, lower]
    exact .withVariables ((lowerAll_mirrors hfc ss).bind fun nodes => mirrors_pure id _)
  | .breakStmt _ | .continueStmt _ => by
    simp only [Stmt.mapTypes, lower]
    refine mirrors_get.bind fun st => (mirrors_ofExcept _).bind fun label => ?_
    exact mirrors_pure id _
  | .switchStmt _ d [] => by
    simp only [Stmt.mapTypes, Clause.mapTypesAll, lower]
    exact mirrors_compiling hfc fun hctx => compileDropped_mirrors hctx d
  | .switchStmt _ d (clause :: clauses) => by
    have hclauses := fun scope compared =>
      lowerClauses_mirrors hfc scope compared 0 false (clause :: clauses)
    obtain ⟨test, body, span⟩ := clause
    simp only [Stmt.mapTypes, Clause.mapTypesAll, lower] at hclauses ⊢
    refine .withLabels fun scope => ?_
    have hdiscriminant := mirrors_compiling hfc fun hctx => compileDiscriminant_mirrors hctx d
    refine Lower.Mirrors.bind hdiscriminant fun r => ?_
    obtain ⟨value, compared⟩ := r
    have hslot : (compared.resolve w).slot fc'.settings.width =
        compared.slot fc.settings.width := by
      rw [hfc.width, Ty.slot_of_resolve]
    dsimp only [Prod.map, id]
    rw [hslot]
    refine (mirrors_declare _ _).bind fun condition => ?_
    refine (hclauses scope compared).withVariables.bind fun cases => ?_
    exact mirrors_ofExcept _
  | .empty _ => by
    simp only [Stmt.mapTypes, lower]
    exact mirrors_pure id _
termination_by structural s => s

private theorem lowerOption_mirrors (hfc : fc.Mirrors w fc') : (s : Option Stmt) →
    (lowerOption fc s).Mirrors w id (lowerOption fc' (Stmt.mapTypesOption (Ty.resolve w) s))
  | none => by
    simp only [Stmt.mapTypesOption, lowerOption]
    exact mirrors_pure id _
  | some s => by
    simp only [Stmt.mapTypesOption, lowerOption]
    exact (lower_mirrors hfc s).bind fun node => mirrors_pure id _
termination_by structural s => s

private theorem lowerAll_mirrors (hfc : fc.Mirrors w fc') : (ss : List Stmt) →
    (lowerAll fc ss).Mirrors w id (lowerAll fc' (Stmt.mapTypesAll (Ty.resolve w) ss))
  | [] => by
    simp only [Stmt.mapTypesAll, lowerAll]
    exact mirrors_pure id _
  | s :: ss => by
    simp only [Stmt.mapTypesAll, lowerAll]
    refine (lower_mirrors hfc s).bind fun node => ?_
    exact (lowerAll_mirrors hfc ss).bind fun nodes => mirrors_pure id _
termination_by structural ss => ss

private theorem lowerClauses_mirrors (hfc : fc.Mirrors w fc') (scope : LabelScope) (compared : Ty) :
    (ordinal : Nat) → (hasDefault : Bool) → (clauses : List Clause) →
    (lowerClauses fc scope compared ordinal hasDefault clauses).Mirrors w id
      (lowerClauses fc' scope (compared.resolve w) ordinal hasDefault
        (Clause.mapTypesAll (Ty.resolve w) clauses))
  | ordinal, hasDefault, [] => by
    simp only [Clause.mapTypesAll, lowerClauses]
    exact mirrors_pure id _
  | ordinal, hasDefault, .mk test body span :: clauses => by
    simp only [Clause.mapTypesAll, lowerClauses, Option.isNone_map]
    refine (lowerTest_mirrors hfc scope compared ordinal hasDefault test span).bind fun r => ?_
    refine (lowerAll_mirrors hfc body).bind fun nodes => ?_
    refine (lowerClauses_mirrors hfc scope compared _ _ clauses).bind fun rest => ?_
    exact mirrors_pure id _
termination_by structural _ _ clauses => clauses

end

/-! ## Functions -/

/-- The parameters are bound with their types resolved. -/
private theorem bindParams_mirrors (span : Span) (index : Nat) (ps : List Param) :
    (bindParams span index ps).Mirrors w id
      (bindParams span index (ps.map (Param.mapTypes (Ty.resolve w)))) := by
  induction ps generalizing index with
  | nil => exact mirrors_pure id _
  | cons p ps ih =>
    refine (mirrors_bindVariable p.name ⟨index, p.ty, false⟩ span).bind fun _ => ?_
    exact ih (index + 1)

/-- The end of a body asks for the depth of the labels alone. -/
private theorem finish_mirrors (function : String) :
    (finish function).Mirrors w id (finish function) := by
  refine mirrors_get.bind fun st => ?_
  have hdepth : (st.mapTypes (Ty.resolve w)).labels.depth = st.labels.depth := rfl
  dsimp only
  rw [hdepth]
  split
  · exact mirrors_throw id _
  · exact mirrors_pure id ()

/-- The body of a function mirrors itself with its types resolved. -/
private theorem lowerBody_mirrors (hfc : fc.Mirrors w fc') (g : Source.Function) :
    (lowerBody fc g).Mirrors w id (lowerBody fc' (g.mapTypes (Ty.resolve w))) := by
  unfold lowerBody
  refine (bindParams_mirrors g.span 0 g.params).bind fun _ => ?_
  refine (lowerAll_mirrors hfc g.body).bind fun nodes => ?_
  refine (finish_mirrors g.name).bind fun _ => ?_
  have hbody : bodyNode (g.mapTypes (Ty.resolve w)).result nodes = bodyNode g.result nodes := by
    simp only [bodyNode, Source.Function.mapTypes, Ty.isVoid_resolve]
  dsimp only [id]
  rw [hbody]
  exact mirrors_pure id _

/-- Lowering a function with its types resolved yields the same function, and the same problems with
    their types resolved. -/
theorem lowerFunction_resolve (settings : Settings) (width' : PointerWidth)
    (functions : FunctionTable) (g : Source.Function) :
    lowerFunction { settings with width := width' } (functions.mapTypes (Ty.resolve settings.width))
        (g.mapTypes (Ty.resolve settings.width)) =
      (lowerFunction settings functions g).map fun r =>
        (r.1, r.2.map (Diagnostic.mapTypes (Ty.resolve settings.width))) := by
  have hparams : (g.mapTypes (Ty.resolve settings.width)).params.map
      (fun p => (⟨p.name, p.ty.slot width'⟩ : Local)) =
      g.params.map fun p => ⟨p.name, p.ty.slot settings.width⟩ := by
    simp only [Source.Function.mapTypes, Param.mapTypes, List.map_map, Function.comp_def,
      Ty.slot_of_resolve]
  have hfc : FunctionContext.Mirrors settings.width ⟨settings, functions, g.result⟩
      ⟨{ settings with width := width' }, functions.mapTypes (Ty.resolve settings.width),
        g.result.resolve settings.width⟩ := ⟨rfl, rfl, rfl, rfl⟩
  have hbody := lowerBody_mirrors hfc g
    { locals := g.params.map fun p => ⟨p.name, p.ty.slot settings.width⟩ }
  unfold lowerFunction
  dsimp only
  rw [hparams]
  -- The parameters have the same slots, so both bodies are lowered from the same locals.
  generalize lowerBody ⟨settings, functions, g.result⟩ g _ = lowered at hbody ⊢
  have hbody : lowerBody _ (g.mapTypes (Ty.resolve settings.width))
      { locals := g.params.map fun p => ⟨p.name, p.ty.slot settings.width⟩ } =
        mirrored settings.width id lowered := hbody
  have hresult : (g.result.resolve settings.width).slot width' = g.result.slot settings.width :=
    Ty.slot_of_resolve _ _ _
  cases lowered with
  | ok body st =>
    simp only [Source.Function.mapTypes] at hbody ⊢
    rw [hbody, hresult]
    rfl
  | error e st =>
    simp only [Source.Function.mapTypes] at hbody ⊢
    rw [hbody]
    rfl

/-! ## Programs -/

/-- The result of lowering a program with each type in its reports replaced. -/
def Lowered.mapTypes (f : Ty → Ty) (r : Lowered) : Lowered :=
  { r with reports := r.reports.map (Diagnostic.mapTypes f) }

/-- The callables of a program are the same, with the types of their signatures replaced. -/
private theorem callables_mapTypes (f : Ty → Ty) (p : Program) :
    callables (p.mapTypes f) = (callables p).map fun c => (c.1, c.2.1.mapTypes f, c.2.2) := by
  simp only [callables, Program.mapTypes, List.mapIdx_eq_zipIdx_map, List.zipIdx_map,
    List.map_append, List.map_map, List.length_map, Function.comp_def, Prod.map, id,
    Source.Import.mapTypes, Source.Function.mapTypes, Param.mapTypes, Signature.mapTypes]

/-- A table refuses a name that it has, whatever the types. -/
private theorem insert_mapTypes (f : Ty → Ty) (t : FunctionTable) (name : String)
    (s : Signature) : (t.mapTypes f).insert name (s.mapTypes f) = (t.insert name s).mapTypes f := by
  simp only [FunctionTable.insert, FunctionTable.find?_mapTypes, Option.isSome_map]
  split
  · rfl
  · simp only [FunctionTable.mapTypes, List.map_append, List.map_cons, List.map_nil]

/-- All callables are entered alike, and the same duplicates are reported. -/
private theorem enterAll_mapTypes (f : Ty → Ty) (t : FunctionTable)
    (cs : List (String × Signature × Span)) :
    enterAll (t.mapTypes f) (cs.map fun c => (c.1, c.2.1.mapTypes f, c.2.2)) =
      ((enterAll t cs).1.mapTypes f, (enterAll t cs).2.map (Diagnostic.mapTypes f)) := by
  induction cs generalizing t with
  | nil => rfl
  | cons c cs ih =>
    obtain ⟨name, s, span⟩ := c
    simp only [List.map_cons, enterAll, FunctionTable.find?_mapTypes, Option.isSome_map,
      insert_mapTypes, ih]
    split <;> rfl

/-- Lists are lowered alike if their members are. -/
private theorem mapM_map_eq {α α' β β' : Type} {x : α → Except Error β} {x' : α' → Except Error β'}
    {f : α → α'} {k : β → β'} (h : ∀ a, x' (f a) = (x a).map k) (as : List α) :
    (as.map f).mapM x' = (as.mapM x).map (List.map k) := by
  induction as with
  | nil => rfl
  | cons a as ih =>
    rw [List.map_cons, List.mapM_cons, List.mapM_cons, h, ih]
    cases x a with
    | error e => rfl
    | ok b => cases as.mapM x <;> rfl

/-- With its types resolved for one width, a program is lowered for any width as it was for that
    one. -/
private theorem lowerProgram_mapTypes (settings : Settings) (width' : PointerWidth) (p : Program) :
    lowerProgram { settings with width := width' } (p.mapTypes (Ty.resolve settings.width)) =
      (lowerProgram settings p).map (Lowered.mapTypes (Ty.resolve settings.width)) := by
  unfold lowerProgram
  rw [callables_mapTypes]
  -- The two tables have the same names, so they report the same duplicates.
  have henter : enterAll {} ((callables p).map fun c =>
      (c.1, c.2.1.mapTypes (Ty.resolve settings.width), c.2.2)) = _ :=
    enterAll_mapTypes (Ty.resolve settings.width) {} (callables p)
  rw [henter]
  generalize enterAll {} (callables p) = entered
  obtain ⟨functions, duplicates⟩ := entered
  have himport : ∀ i, lowerImport { settings with width := width' }
      (i.mapTypes (Ty.resolve settings.width)) = lowerImport settings i := by
    intro i
    simp only [lowerImport, Source.Import.mapTypes, List.map_map, Function.comp_def,
      Ty.slot_of_resolve]
  have himports : (p.imports.map (Source.Import.mapTypes (Ty.resolve settings.width))).map
      (lowerImport { settings with width := width' }) = p.imports.map (lowerImport settings) := by
    rw [List.map_map]
    exact List.map_congr_left fun i _ => himport i
  have hfunctions := mapM_map_eq (lowerFunction_resolve settings width' functions) p.functions
  simp only [Program.mapTypes, himports, hfunctions]
  cases p.functions.mapM (lowerFunction settings functions) with
  | error e => rfl
  | ok lowered =>
    simp only [Except.map, bind, Except.bind, pure, Except.pure, Lowered.mapTypes, List.map_append,
      List.map_map, List.map_flatMap, List.flatMap_map, Function.comp_def]

/-- Lowering a program gives the same module or the same error if every `usize` in it is replaced by
    the unsigned integer as wide as a pointer, and the same problems in order and place once the
    replacement is made in them too. So a program without `usize` is lowered alike for every
    width. -/
theorem lowerProgram_resolve (settings : Settings) (p : Program) :
    lowerProgram settings (p.mapTypes (Ty.resolve settings.width)) =
        (lowerProgram settings p).map (Lowered.mapTypes (Ty.resolve settings.width)) ∧
      (Ty.usize ∉ p.types →
        ∀ width, lowerProgram { settings with width } p = lowerProgram settings p) := by
  refine ⟨lowerProgram_mapTypes settings settings.width p, fun hno width => ?_⟩
  have hsame : p.mapTypes (Ty.resolve settings.width) = p := by
    refine Program.mapTypes_eq_self fun t ht => ?_
    have hne : t ≠ .usize := fun h => hno (h ▸ ht)
    exact (Ty.resolve_eq_iff _ _).2 (.inr ⟨hne, rfl⟩)
  -- Both widths are compared with the resolved program.
  have hwidth := lowerProgram_mapTypes settings width p
  have hself := lowerProgram_mapTypes settings settings.width p
  rw [hsame] at hwidth hself
  exact hwidth.trans hself.symm

/-- A program with `usize` in an import, a parameter, a declaration and a cast. -/
def measuring : Program where
  imports := [⟨"length", [.usize], .usize⟩]
  functions := [{
    name := "main"
    params := [⟨"n", .usize⟩]
    result := .u32
    bodySpan := .empty
    body := [
      .varDecl .empty .letVar [⟨⟨.empty, "k"⟩, some .usize,
        some (.call .empty ⟨.empty, "length"⟩ [.cast .empty (.name .empty "n") .usize])⟩],
      .returnStmt .empty (some (.name ⟨5, 6, 0⟩ "k"))]
    isExported := true
    span := .empty }]

theorem measuring_resolve :
    let wide : Settings := { width := .w64 }
    let resolved := measuring.mapTypes (Ty.resolve .w64)
    (lowerProgram wide measuring).map Lowered.reports =
        .ok [⟨.implicitConversion .usize .u32, ⟨5, 6, 0⟩⟩] ∧
      lowerProgram wide resolved =
        (lowerProgram wide measuring).map (Lowered.mapTypes (Ty.resolve .w64)) ∧
      Ty.usize ∉ resolved.types ∧
      lowerProgram { wide with width := .w32 } resolved = lowerProgram wide resolved := by
  intro wide resolved
  have hno : Ty.usize ∉ resolved.types := by decide
  exact ⟨by rfl, (lowerProgram_resolve wide measuring).1, hno,
    (lowerProgram_resolve wide resolved).2 hno .w32⟩

end Weir.Lowering
