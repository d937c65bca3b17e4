import Weir.Proofs.ProgramTyping

/-!
# Declarations

Which variables are in scope at a point of a function, and which types its locals have by then,
follows from the source. `declarations` reads it off the statements without any of the code that
they are lowered to, and lowering a statement keeps in step with it.

## Key results

- `declarations`, `localTypes`: the variables in scope after a statement, and the types of all
  locals of a function
- `declarations_extends`: statements only add locals, and each of them has values
- `lower_records`, `lowerFunction_records`: the locals that lowering allocates have those types
-/

namespace Weir.Lowering

open Weir.Code (Local Node Slot)
open Weir.Source (Clause Declarator Expr Param PointerWidth Program Span Stmt Ty)

/-- The variables in scope at a point of a function, and the types of the locals that it has by
    then. There is a local for each variable, and one for the discriminant of each switch. -/
structure Declarations where
  scopes : Variables
  types : List Ty

namespace Declarations

/-- Inside a new scope. -/
def opened (D : Declarations) : Declarations := { D with scopes := [] :: D.scopes }

/-- Outside the innermost scope. -/
def closed (D : Declarations) : Declarations := { D with scopes := D.scopes.tail }

/-- With a further local that no name stands for. -/
def reserve (D : Declarations) (t : Ty) : Declarations := { D with types := D.types ++ [t] }

/-- With a further variable in the innermost scope. -/
def declare (D : Declarations) (name : String) (t : Ty) (isConst : Bool) : Declarations :=
  ⟨D.scopes.bind name ⟨D.types.length, t, isConst⟩, D.types ++ [t]⟩

end Declarations

/-- What expressions are compiled in where these variables are in scope. -/
def FunctionContext.visible (fc : FunctionContext) (D : Declarations) : Context :=
  ⟨fc.settings.width, fc.functions, D.scopes⟩

/-- The variables in scope after a declarator. -/
def declarator (fc : FunctionContext) (isConst : Bool) (D : Declarations) (d : Declarator) :
    Declarations :=
  let t := (compileInitial (fc.visible D) d (declaredType? d)).value.2
  D.declare d.ident.name t isConst

mutual

/-- The variables in scope after a statement, and the locals up to there. -/
def declarations (fc : FunctionContext) : Stmt → Declarations → Declarations
  | .varDecl _ kind ds, D => ds.foldl (declarator fc (kind = .constVar)) D
  | .ifStmt _ _ t e, D => declarationsOption fc e (declarations fc t D)
  | .forStmt _ init _ _ body, D =>
    (declarationsOption fc body (declarationsOption fc init D.opened)).closed
  | .whileStmt _ _ body, D => declarationsOption fc body D
  | .doWhile _ body _, D => declarations fc body D
  | .block _ ss, D => (declarationsAll fc ss D.opened).closed
  | .switchStmt _ _ [], D => D
  | .switchStmt _ discriminant clauses, D =>
    let compared := (compileDiscriminant (fc.visible D) discriminant).value.2
    (declarationsClauses fc clauses (D.reserve compared).opened).closed
  | .exprStmt .., D | .returnStmt .., D | .breakStmt _, D | .continueStmt _, D | .empty _, D => D
termination_by structural s => s

/-- The same for a statement that may be missing. -/
def declarationsOption (fc : FunctionContext) : Option Stmt → Declarations → Declarations
  | none, D => D
  | some s, D => declarations fc s D
termination_by structural s => s

/-- The same for statements one after the other. -/
def declarationsAll (fc : FunctionContext) : List Stmt → Declarations → Declarations
  | [], D => D
  | s :: ss, D => declarationsAll fc ss (declarations fc s D)
termination_by structural ss => ss

/-- The same for the clauses of a switch, which share a scope. -/
def declarationsClauses (fc : FunctionContext) : List Clause → Declarations → Declarations
  | [], D => D
  | .mk _ body _ :: clauses, D => declarationsClauses fc clauses (declarationsAll fc body D)
termination_by structural clauses => clauses

end

/-- The variables in scope at the start of a function: its parameters are its first locals. -/
def parameters (ps : List Param) : Declarations :=
  ps.foldl (fun D p => D.declare p.name p.ty false) ⟨[[]], []⟩

/-- The types of the locals of a function, parameters first. -/
def localTypes (settings : Settings) (functions : FunctionTable) (f : Source.Function) : List Ty :=
  (declarationsAll ⟨settings, functions, f.result⟩ f.body (parameters f.params)).types

/-! ## What statements add -/

namespace Declarations

/-- Every variable in scope has a local of its type. -/
def Consistent (D : Declarations) : Prop :=
  ∀ scope ∈ D.scopes, ∀ name v, (name, v) ∈ scope → D.types[v.index]? = some v.ty

/-- The second point comes after the first one: locals have been added, none of them without a
    value. -/
structure Extends (D D' : Declarations) : Prop where
  types : ∃ more, D'.types = D.types ++ more ∧ ∀ t ∈ more, t.isVoid = false
  consistent : D.Consistent → D'.Consistent

variable {D D₁ D₂ : Declarations}

/-- What a name stands for has a local of its type. -/
theorem Consistent.find? (h : D.Consistent) {name : String} {v : Variable}
    (hfind : D.scopes.find? name = some v) : D.types[v.index]? = some v.ty := by
  obtain ⟨scope, hscope, hlookup⟩ := List.exists_of_findSome?_eq_some hfind
  obtain ⟨pre, post, heq, -⟩ := List.lookup_eq_some_iff.1 hlookup
  exact h scope hscope name v (by simp [heq])

/-- Locals may be added, and scopes be opened or closed. -/
private theorem Consistent.mono {scopes : Variables} {more : List Ty} (h : D.Consistent)
    (hscopes : ∀ scope ∈ scopes, scope = [] ∨ scope ∈ D.scopes) :
    Consistent ⟨scopes, D.types ++ more⟩ := by
  intro scope hscope name v hv
  rcases hscopes scope hscope with rfl | hmem
  · cases hv
  · have htype := h scope hmem name v hv
    show (D.types ++ more)[v.index]? = some v.ty
    rw [List.getElem?_append_left (List.getElem?_eq_some_iff.1 htype).1, htype]

/-- An empty scope in front is consistent. -/
theorem Consistent.opened (h : D.Consistent) : D.opened.Consistent := by
  intro scope hscope name v hv
  rcases List.mem_cons.1 hscope with rfl | hmem
  · cases hv
  · exact h scope hmem name v hv

/-- A local that has no name is in no scope. -/
theorem Consistent.reserve (h : D.Consistent) (t : Ty) : (D.reserve t).Consistent :=
  h.mono fun _ hscope => .inr hscope

/-- A new variable has the local that is added for it. -/
private theorem Consistent.declare (h : D.Consistent) (name : String) (t : Ty) (isConst : Bool) :
    (D.declare name t isConst).Consistent := by
  have hnew : (D.types ++ [t])[D.types.length]? = some t := by
    rw [List.getElem?_append_right (Nat.le_refl _), Nat.sub_self]
    rfl
  have hold := h.reserve t
  intro scope hscope name' v hv
  -- Only the innermost scope changes, and there only the one name.
  unfold Declarations.declare Variables.bind at hscope
  dsimp only at hscope
  split at hscope
  next => cases hscope
  next innermost rest hscopes =>
    rcases List.mem_cons.1 hscope with rfl | hrest
    · rcases List.mem_cons.1 hv with heq | hmem
      · cases heq
        exact hnew
      · exact hold innermost (hscopes ▸ List.mem_cons_self) name' v hmem
    · exact hold scope (hscopes ▸ List.mem_cons_of_mem _ hrest) name' v hv

namespace Extends

/-- Nothing is added. -/
theorem refl : D.Extends D := ⟨⟨[], by simp⟩, fun h => h⟩

/-- Extensions of extensions are extensions. -/
theorem trans (h : D.Extends D₁) (h' : D₁.Extends D₂) : D.Extends D₂ where
  types := by
    obtain ⟨more, heq, hmore⟩ := h.types
    obtain ⟨more', heq', hmore'⟩ := h'.types
    refine ⟨more ++ more', ?_, List.forall_mem_append.2 ⟨hmore, hmore'⟩⟩
    rw [heq', heq, List.append_assoc]
  consistent hD := h'.consistent (h.consistent hD)

/-- What was there before is still there. -/
theorem isPrefix (h : D.Extends D₁) : D.types <+: D₁.types := by
  obtain ⟨more, heq, -⟩ := h.types
  exact ⟨more, heq.symm⟩

/-- A scope that was opened is closed again. -/
private theorem closed (h : D.opened.Extends D₁) : D.Extends D₁.closed where
  types := h.types
  consistent hD := by
    have hinner := h.consistent hD.opened
    exact fun scope hscope => hinner scope (List.mem_of_mem_tail hscope)

/-- Declaring a variable extends the declarations if the variable has a value. -/
theorem declare {name : String} {t : Ty} {isConst : Bool} (h : t.isVoid = false) :
    D.Extends (D.declare name t isConst) where
  types := ⟨[t], rfl, by simpa⟩
  consistent hD := hD.declare name t isConst

/-- Setting a local aside extends the declarations if the local has a value. -/
theorem reserve {t : Ty} (h : t.isVoid = false) : D.Extends (D.reserve t) where
  types := ⟨[t], rfl, by simpa⟩
  consistent hD := hD.reserve t

end Extends

end Declarations

open Declarations (Extends)

variable {fc : FunctionContext}

/-- No variable is given the type `void`. -/
theorem compileInitial_isVoid (ctx : Context) (d : Declarator) :
    (compileInitial ctx d (declaredType? d)).value.2.isVoid = false := by
  have hdeclared : ∀ t, declaredType? d = some t → t.isVoid = false := by
    intro t ht
    unfold declaredType? at ht
    split at ht
    next => cases ht
    next hne =>
      rw [ht] at hne
      cases t <;> first | rfl | exact absurd rfl hne
  -- A declared type is not `void`, and a value without one counts as `i32`.
  unfold compileInitial
  split
  next e t _ hd => exact hdeclared t hd
  next e _ _ =>
    simp only [Reported.value_bind]
    split
    next => rfl
    next hvoid => simpa using hvoid
  next t _ hd => exact hdeclared t hd
  next => rfl

/-- A declarator adds one variable. -/
theorem declarator_extends (isConst : Bool) (D : Declarations) (d : Declarator) :
    D.Extends (declarator fc isConst D d) :=
  .declare (compileInitial_isVoid (fc.visible D) d)

/-- Declarators add their variables in turn. -/
theorem declarators_extends (isConst : Bool) (ds : List Declarator) (D : Declarations) :
    D.Extends (ds.foldl (declarator fc isConst) D) := by
  induction ds generalizing D with
  | nil => exact .refl
  | cons d ds ih => exact (declarator_extends isConst D d).trans (ih _)

mutual

/-- A statement only adds locals that have values, and its scopes are closed at its end. -/
theorem declarations_extends : (s : Stmt) → (D : Declarations) → D.Extends (declarations fc s D)
  | .varDecl _ kind ds, D => declarators_extends _ ds D
  | .ifStmt _ _ t e, D => (declarations_extends t D).trans (declarationsOption_extends e _)
  | .forStmt _ init _ _ body, D =>
    ((declarationsOption_extends init D.opened).trans (declarationsOption_extends body _)).closed
  | .whileStmt _ _ body, D => declarationsOption_extends body D
  | .doWhile _ body _, D => declarations_extends body D
  | .block _ ss, D => (declarationsAll_extends ss D.opened).closed
  | .switchStmt _ _ [], D => .refl
  | .switchStmt _ d (clause :: clauses), D => by
    -- The local of the condition comes before those of the clauses.
    have hreserve := Extends.reserve (D := D) (compileDiscriminant_isVoid (fc.visible D) d)
    exact hreserve.trans (declarationsClauses_extends (clause :: clauses) _).closed
  | .exprStmt .., D | .returnStmt .., D | .breakStmt _, D | .continueStmt _, D | .empty _, D =>
    .refl
termination_by structural s => s

theorem declarationsOption_extends : (s : Option Stmt) → (D : Declarations) →
    D.Extends (declarationsOption fc s D)
  | none, _ => .refl
  | some s, D => declarations_extends s D
termination_by structural s => s

/-- The statements of a list extend the declarations one after the other. -/
theorem declarationsAll_extends : (ss : List Stmt) → (D : Declarations) →
    D.Extends (declarationsAll fc ss D)
  | [], _ => .refl
  | s :: ss, D => (declarations_extends s D).trans (declarationsAll_extends ss _)
termination_by structural ss => ss

/-- The bodies of the clauses extend the declarations one after the other. -/
theorem declarationsClauses_extends : (clauses : List Clause) → (D : Declarations) →
    D.Extends (declarationsClauses fc clauses D)
  | [], _ => .refl
  | .mk _ body _ :: clauses, D =>
    (declarationsAll_extends body D).trans (declarationsClauses_extends clauses _)
termination_by structural clauses => clauses

end

/-! ## Lowering keeps in step -/

/-- The state has the declared variables in scope, and a local in the slot of each type. -/
structure State.Records (w : PointerWidth) (st : State) (D : Declarations) : Prop where
  scopes : st.bindings = D.scopes
  locals : st.locals.map Local.slot = D.types.map (·.slot w)

namespace State.Records

variable {w : PointerWidth} {st : State} {D : Declarations}

/-- There are as many locals as types are recorded. -/
theorem length_eq (h : st.Records w D) : st.locals.length = D.types.length := by
  simpa using congrArg List.length h.locals

/-- The expressions see what is recorded, and no more. -/
theorem context_eq (h : st.Records w D) : fc.context st = fc.visible D := by
  unfold FunctionContext.context FunctionContext.visible
  rw [h.scopes]

/-- A scope is opened on both sides. -/
theorem opened (h : st.Records w D) : st.opened.Records w D.opened where
  scopes := congrArg ([] :: ·) h.scopes
  locals := h.locals

/-- A scope is closed on both sides. -/
private theorem closed (h : st.Records w D) : st.closed.Records w D.closed where
  scopes := congrArg List.tail h.scopes
  locals := h.locals

/-- Reports are not recorded. -/
theorem noting (h : st.Records w D) (ds : List Diagnostic) : (st.noting ds).Records w D :=
  ⟨h.scopes, h.locals⟩

/-- Labels are not recorded when a scope is entered. -/
theorem entered (h : st.Records w D) (kind : ScopeKind) : (st.entered kind).Records w D :=
  ⟨h.scopes, h.locals⟩

/-- Labels are not recorded when a scope is left. -/
theorem left (h : st.Records w D) : st.left.Records w D := ⟨h.scopes, h.locals⟩

/-- A local is set aside on both sides. -/
private theorem reserve (h : st.Records w D) (name : String) (t : Ty) :
    (st.declared name (t.slot w)).Records w (D.reserve t) where
  scopes := h.scopes
  locals := by
    show (st.locals ++ [(⟨name, t.slot w⟩ : Local)]).map Local.slot =
      (D.types ++ [t]).map (·.slot w)
    rw [List.map_append, List.map_append, h.locals]
    rfl

/-- A variable is declared on both sides, with the next local. -/
theorem declare (h : st.Records w D) (name : String) (t : Ty) (isConst : Bool) :
    ((st.declared name (t.slot w)).bound name ⟨st.locals.length, t, isConst⟩).Records w
      (D.declare name t isConst) where
  scopes := by
    show st.bindings.bind name _ = D.scopes.bind name _
    rw [h.scopes, h.length_eq]
  locals := (h.reserve name t).locals

end State.Records

variable {st st' : State} {D : Declarations}

/-- Lowering a declarator records it. -/
theorem lowerDeclarator_records {isConst : Bool} {d : Declarator} {ns : List Node}
    (h : lowerDeclarator fc isConst d st = .ok ns st') (hst : st.Records fc.settings.width D) :
    st'.Records fc.settings.width (declarator fc isConst D d) := by
  obtain ⟨-, reports, rfl⟩ := lowerDeclarator_eq_ok h
  rw [hst.context_eq]
  exact (hst.declare _ _ _).noting _

/-- Lowering a list of declarators records each of them. -/
private theorem lowerDeclarators_records {isConst : Bool} {ds : List Declarator} {ns : List Node}
    (h : lowerDeclarators fc isConst ds st = .ok ns st') (hst : st.Records fc.settings.width D) :
    st'.Records fc.settings.width (ds.foldl (declarator fc isConst) D) := by
  induction ds generalizing st ns D with
  | nil =>
    obtain ⟨-, rfl⟩ := lowerDeclarators_nil h
    exact hst
  | cons d ds ih =>
    obtain ⟨first, st₁, rest, hfirst, hrest, -⟩ := lowerDeclarators_cons h
    exact ih hrest (lowerDeclarator_records hfirst hst)

/-- The value of a clause declares nothing. -/
theorem lowerTest_records {scope : LabelScope} {compared : Ty} {ordinal : Nat} {hasDefault : Bool}
    {test : Option Expr} {span : Span} {r : Code.Label × Option Node}
    (h : lowerTest fc scope compared ordinal hasDefault test span st = .ok r st')
    (hst : st.Records fc.settings.width D) : st'.Records fc.settings.width D := by
  rcases lowerTest_eq_ok h with ⟨e, -, -, rfl⟩ | ⟨-, -, -, rfl⟩ | ⟨-, -, -, d, rfl⟩
  · exact hst.noting _
  · exact hst
  · exact hst.noting _

/-- Inside a switch there is a local for its discriminant. -/
theorem State.Records.switched (hst : st.Records fc.settings.width D) (d : Expr) :
    (st.switched fc d).Records fc.settings.width
      (D.reserve (compileDiscriminant (fc.visible D) d).value.2).opened := by
  have hnoted := (hst.entered .switch).noting (compileDiscriminant (fc.context st) d).reports
  have hreserved := hnoted.reserve ("condition$" ++ toString st.labels.next)
    (compileDiscriminant (fc.visible D) d).value.2
  unfold State.switched
  rw [hst.context_eq] at hreserved ⊢
  exact hreserved.opened

mutual

/-- A statement is lowered with the declared variables in scope, and allocates the declared
    locals. -/
theorem lower_records : (s : Stmt) → ∀ {st st' : State} {n : Node} {D : Declarations},
    lower fc s st = .ok n st' → st.Records fc.settings.width D →
    st'.Records fc.settings.width (declarations fc s D)
  | .exprStmt _ e, st, st', n, D, h, hst => by
    obtain ⟨-, rfl⟩ := lower_exprStmt h
    exact hst.noting _
  | .varDecl _ kind ds, st, st', n, D, h, hst => by
    obtain ⟨sets, hsets, -⟩ := lower_varDecl h
    exact lowerDeclarators_records hsets hst
  | .returnStmt _ value, st, st', n, D, h, hst => by
    rcases lower_return h with ⟨e, -, -, -, rfl⟩ | ⟨-, -, -, rfl⟩ | ⟨-, d, rfl⟩
    · exact hst.noting _
    · exact hst
    · exact hst.noting _
  | .ifStmt _ c t e, st, st', n, D, h, hst => by
    obtain ⟨tn, st₁, en, ht, he, -⟩ := lower_if h
    exact lowerOption_records e he (lower_records t ht (hst.noting _))
  -- What the initial part declares is in scope until the end of the loop.
  | .forStmt _ init c u body, st, st', n, D, h, hst => by
    obtain ⟨i, st₁, bn, st₂, hinit, hbody, -, -, rfl⟩ := lower_for h
    have hst₁ := lowerOption_records init hinit hst.opened
    have hst₂ := lowerOption_records body hbody (hst₁.entered .loop)
    exact (hst₂.noting _).left.closed
  | .whileStmt _ c body, st, st', n, D, h, hst => by
    obtain ⟨bn, st₁, hbody, -, rfl⟩ := lower_while h
    exact ((lowerOption_records body hbody (hst.entered .loop)).noting _).left
  | .doWhile _ body c, st, st', n, D, h, hst => by
    obtain ⟨bn, st₁, hbody, -, rfl⟩ := lower_doWhile h
    exact ((lower_records body hbody (hst.entered .loop)).noting _).left
  | .block _ ss, st, st', n, D, h, hst => by
    obtain ⟨nodes, st₁, hnodes, -, rfl⟩ := lower_block h
    exact (lowerAll_records ss hnodes hst.opened).closed
  | .breakStmt _, st, st', n, D, h, hst => by
    obtain ⟨-, -, -, rfl⟩ := lower_break h
    exact hst
  | .continueStmt _, st, st', n, D, h, hst => by
    obtain ⟨-, -, -, rfl⟩ := lower_continue h
    exact hst
  | .switchStmt _ d [], st, st', n, D, h, hst => by
    obtain ⟨-, rfl⟩ := lower_switch_nil h
    exact hst.noting _
  | .switchStmt _ d (clause :: clauses), st, st', n, D, h, hst => by
    obtain ⟨cases, st₁, hclauses, -, rfl⟩ := lower_switch (by simp) h
    exact (lowerClauses_records (clause :: clauses) hclauses (hst.switched d)).closed.left
  | .empty _, st, st', n, D, h, hst => by
    obtain ⟨-, rfl⟩ := lower_empty h
    exact hst
termination_by structural s => s

theorem lowerOption_records : (s : Option Stmt) → ∀ {st st' : State} {o : Option Node}
    {D : Declarations}, lowerOption fc s st = .ok o st' → st.Records fc.settings.width D →
    st'.Records fc.settings.width (declarationsOption fc s D)
  | none, st, st', o, D, h, hst => by
    obtain ⟨-, rfl⟩ := lowerOption_none h
    exact hst
  | some s, st, st', o, D, h, hst => by
    obtain ⟨node, hnode, -⟩ := lowerOption_some h
    exact lower_records s hnode hst
termination_by structural s => s

/-- Lowering a list of statements records what they declare, in order. -/
theorem lowerAll_records : (ss : List Stmt) → ∀ {st st' : State} {ns : List Node}
    {D : Declarations}, lowerAll fc ss st = .ok ns st' → st.Records fc.settings.width D →
    st'.Records fc.settings.width (declarationsAll fc ss D)
  | [], st, st', ns, D, h, hst => by
    obtain ⟨-, rfl⟩ := lowerAll_nil h
    exact hst
  | s :: ss, st, st', ns, D, h, hst => by
    obtain ⟨node, st₁, nodes, hnode, hnodes, -⟩ := lowerAll_cons h
    exact lowerAll_records ss hnodes (lower_records s hnode hst)
termination_by structural ss => ss

/-- Lowering the clauses of a switch records what their bodies declare. -/
private theorem lowerClauses_records {scope : LabelScope} {compared : Ty} :
    (clauses : List Clause) →
    ∀ {ordinal : Nat} {hasDefault : Bool} {st st' : State} {cases : List Case}
    {D : Declarations},
    lowerClauses fc scope compared ordinal hasDefault clauses st = .ok cases st' →
    st.Records fc.settings.width D →
    st'.Records fc.settings.width (declarationsClauses fc clauses D)
  | [], ordinal, hasDefault, st, st', cases, D, h, hst => by
    obtain ⟨-, rfl⟩ := lowerClauses_nil h
    exact hst
  | .mk test body span :: clauses, ordinal, hasDefault, st, st', cases, D, h, hst => by
    obtain ⟨r, st₁, nodes, st₂, rest, htest, hbody, hrest, -⟩ := lowerClauses_cons h
    have hst₂ := lowerAll_records body hbody (lowerTest_records htest hst)
    exact lowerClauses_records clauses hrest hst₂
termination_by structural clauses => clauses

end

/-! ## Functions -/

/-- Parameters are variables, and all locals that there are at the start. -/
private theorem parameters_types (ps : List Param) : (parameters ps).types = ps.map Param.ty := by
  suffices h : ∀ D : Declarations, (ps.foldl (fun D p => D.declare p.name p.ty false) D).types =
      D.types ++ ps.map Param.ty from h ⟨[[]], []⟩
  induction ps with
  | nil => exact fun D => (List.append_nil _).symm
  | cons p ps ih =>
    intro D
    rw [List.foldl_cons, ih, List.map_cons]
    exact List.append_assoc ..

/-- The parameters are consistent. -/
theorem parameters_consistent (ps : List Param) : (parameters ps).Consistent := by
  suffices h : ∀ D : Declarations, D.Consistent →
      (ps.foldl (fun D p => D.declare p.name p.ty false) D).Consistent from
    h ⟨[[]], []⟩ (by simp [Declarations.Consistent])
  induction ps with
  | nil => exact fun D hD => hD
  | cons p ps ih => exact fun D hD => ih _ (hD.declare p.name p.ty false)

/-- Parameters are bound to the locals that are numbered like them. -/
private theorem bindParams_bindings {span : Span} {ps : List Param} {index : Nat} {u : Unit}
    (h : bindParams span index ps st = .ok u st') (hscopes : st.bindings = D.scopes)
    (hindex : D.types.length = index) :
    st'.locals = st.locals ∧
      st'.bindings = (ps.foldl (fun D p => D.declare p.name p.ty false) D).scopes := by
  -- The induction is on the parameters. The index of the next one is the number of those before it.
  induction ps generalizing index st D with
  | nil =>
    cases h
    exact ⟨rfl, hscopes⟩
  | cons p ps ih =>
    obtain ⟨u, st₁, hbind, h⟩ := Lower.bind_eq_ok h
    obtain ⟨ds, rfl⟩ := Lower.bindVariable_eq_ok hbind
    have hbound : ((st.bound p.name ⟨index, p.ty, false⟩).noting ds).bindings =
        (D.declare p.name p.ty false).scopes := by
      show st.bindings.bind p.name _ = D.scopes.bind p.name _
      rw [hscopes, hindex]
    have hlength : (D.declare p.name p.ty false).types.length = index + 1 := by
      show (D.types ++ [p.ty]).length = index + 1
      rw [List.length_append, hindex]
      rfl
    have hrest := ih h hbound hlength
    exact hrest

/-- A function is lowered from its parameters on, and in the end it has the declared locals. -/
theorem lowerFunction_records {settings : Settings} {functions : FunctionTable}
    {f : Source.Function} {g : Code.Function} {reports : List Diagnostic}
    (h : lowerFunction settings functions f = .ok (g, reports)) :
    g.paramSlots ++ g.locals.map Local.slot =
        (localTypes settings functions f).map (·.slot settings.width) ∧
      ∃ st nodes st', st.Records settings.width (parameters f.params) ∧
        lowerAll ⟨settings, functions, f.result⟩ f.body st = .ok nodes st' ∧
        g.body = bodyNode f.result nodes := by
  obtain ⟨u, st, nodes, st', hparams, hnodes, rfl, -⟩ := lowerFunction_parts h
  obtain ⟨hlocals, hbindings⟩ := bindParams_bindings (D := ⟨[[]], []⟩) hparams rfl rfl
  have hstart : st.Records settings.width (parameters f.params) := by
    refine ⟨hbindings, ?_⟩
    rw [hlocals, parameters_types]
    simp
  have hend := lowerAll_records f.body hnodes hstart
  refine ⟨?_, st, nodes, st', hstart, hnodes, rfl⟩
  -- The parameters are the first of all locals.
  obtain ⟨more, hmore⟩ := (lowerAll_advances f.body hnodes).locals
  have hsplit : st'.locals = st.locals ++ more := hmore.symm
  have hslots : st'.locals.map Local.slot =
      (localTypes settings functions f).map (·.slot settings.width) := hend.locals
  rw [← hslots, hsplit, hlocals, List.drop_left, List.map_append]
  rfl

/-- The locals of a function besides its parameters have values. -/
theorem exists_localTypes (settings : Settings) (functions : FunctionTable)
    (f : Source.Function) : ∃ more,
      localTypes settings functions f = f.params.map Param.ty ++ more ∧
        ∀ t ∈ more, t.isVoid = false := by
  have hextends : (parameters f.params).Extends
      (declarationsAll ⟨settings, functions, f.result⟩ f.body (parameters f.params)) :=
    declarationsAll_extends f.body _
  obtain ⟨more, heq, hmore⟩ := hextends.types
  rw [parameters_types] at heq
  exact ⟨more, heq, hmore⟩

end Weir.Lowering
