import Weir.Proofs.Execution

/-!
# Scope discipline

Lowering a statement opens scopes of labels and of variables on its way, and it may fail in the
midst of them. Whichever way it ends, the scopes of labels are open that were open before. Of the
scopes of variables only the innermost one may have changed: names may be bound there in front of
the others, each to a local that was declared under this name on the way.

## Key results

- `State.Disciplined.trans`, `State.Disciplined.closed`, `State.Disciplined.left`: the discipline of
  consecutive steps, and of steps in a scope of their own
- `Lower.Disciplined.bind`, `Lower.Disciplined.withVariables`, `Lower.Disciplined.withLabels`: steps
  of lowering keep the discipline if their parts do, also where these fail
- `lower_disciplined`: statements keep it
-/

namespace Weir.Lowering

open Weir.Code (Label Local Node Slot)
open Weir.Source (Clause Declarator Expr PointerWidth Span Stmt Ty)

/-! ## States -/

/-- Brings bindings into the innermost scope, in front of those that are there. -/
def Variables.extended (scopes : Variables) (new : VariableScope) : Variables :=
  match scopes with
  | [] => []
  | scope :: rest => (new ++ scope) :: rest

namespace Variables

variable (scopes : Variables) (new new' : VariableScope)

@[simp] theorem extended_nil : scopes.extended [] = scopes := by
  cases scopes <;> rfl

/-- What comes later stands in front. -/
@[simp] theorem extended_extended :
    (scopes.extended new).extended new' = scopes.extended (new' ++ new) := by
  cases scopes <;> simp [extended]

@[simp] theorem length_extended : (scopes.extended new).length = scopes.length := by
  cases scopes <;> rfl

@[simp] theorem tail_extended : (scopes.extended new).tail = scopes.tail := by
  cases scopes <;> rfl

private theorem head?_extended : (scopes.extended new).head? = scopes.head?.map (new ++ ·) := by
  cases scopes <;> rfl

/-- Binding a name adds it to the innermost scope. -/
private theorem bind_eq_extended (name : String) (v : Variable) :
    scopes.bind name v = scopes.extended [(name, v)] := by
  cases scopes <;> rfl

end Variables

/-- The bindings are of names to locals past the first `first` ones, and each of these locals was
    declared under the name, in the slot of the type. -/
def BindsNew (w : PointerWidth) (first : Nat) (locals : List Local) (new : VariableScope) : Prop :=
  ∀ name v, (name, v) ∈ new → first ≤ v.index ∧ locals[v.index]? = some ⟨name, v.ty.slot w⟩

/-- The second state is left behind by a step that began in the first one and kept the discipline.
-/
structure State.Disciplined (w : PointerWidth) (st st' : State) : Prop where
  scopes : st'.labels.scopes = st.labels.scopes
  next : st.labels.next ≤ st'.labels.next
  locals : st.locals <+: st'.locals
  bindings : ∃ new, st'.bindings = st.bindings.extended new ∧
    BindsNew w st.locals.length st'.locals new

section

variable {w : PointerWidth} {first first' : Nat} {locals locals' : List Local}
  {new new' : VariableScope}

/-- No names are bound to new locals. -/
private theorem bindsNew_nil : BindsNew w first locals [] :=
  fun _ _ hv => by cases hv

/-- Names that are bound to new locals, and more of them. -/
private theorem BindsNew.append (h : BindsNew w first locals new)
    (h' : BindsNew w first locals new') : BindsNew w first locals (new ++ new') :=
  fun name v hv => (List.mem_append.1 hv).elim (h name v) (h' name v)

/-- Locals are not lost, and what was declared late was not declared before. -/
private theorem BindsNew.mono (h : BindsNew w first locals new) (hfirst : first' ≤ first)
    (hlocals : locals <+: locals') : BindsNew w first' locals' new := by
  intro name v hv
  obtain ⟨hindex, hlocal⟩ := h name v hv
  obtain ⟨more, rfl⟩ := hlocals
  have hlt : v.index < locals.length := (List.getElem?_eq_some_iff.1 hlocal).1
  refine ⟨Nat.le_trans hfirst hindex, ?_⟩
  rw [List.getElem?_append_left hlt, hlocal]

end

namespace State.Disciplined

variable {w : PointerWidth} {st st₁ st₂ : State}

/-- Nothing has to happen. -/
theorem refl : st.Disciplined w st :=
  ⟨rfl, Nat.le_refl _, List.prefix_rfl, [], (Variables.extended_nil _).symm, bindsNew_nil⟩

/-- What two steps add is what both of them add. -/
theorem trans (h : st.Disciplined w st₁) (h' : st₁.Disciplined w st₂) : st.Disciplined w st₂ where
  scopes := h'.scopes.trans h.scopes
  next := Nat.le_trans h.next h'.next
  locals := h.locals.trans h'.locals
  bindings := by
    obtain ⟨new, hbindings, hnew⟩ := h.bindings
    obtain ⟨new', hbindings', hnew'⟩ := h'.bindings
    refine ⟨new' ++ new, ?_, ?_⟩
    · rw [hbindings', hbindings, Variables.extended_extended]
    -- The locals of later names are newer still, and those of earlier names are kept.
    · have hlater := hnew'.mono h.locals.length_le List.prefix_rfl
      exact hlater.append (hnew.mono (Nat.le_refl _) h'.locals)

private theorem noting (ds : List Diagnostic) : st.Disciplined w (st.noting ds) :=
  ⟨rfl, Nat.le_refl _, List.prefix_rfl, [], (Variables.extended_nil _).symm, bindsNew_nil⟩

/-- A local that is declared has no name in scope yet. -/
theorem declared (name : String) (slot : Slot) : st.Disciplined w (st.declared name slot) :=
  ⟨rfl, Nat.le_refl _, List.prefix_append _ _, [], (Variables.extended_nil _).symm, bindsNew_nil⟩

/-- A name is bound to the local that is declared for it. -/
theorem bound (name : String) (ty : Ty) (isConst : Bool) :
    st.Disciplined w
      ((st.declared name (ty.slot w)).bound name ⟨st.locals.length, ty, isConst⟩) where
  scopes := rfl
  next := Nat.le_refl _
  locals := List.prefix_append _ _
  bindings := by
    refine ⟨_, Variables.bind_eq_extended _ _ _, ?_⟩
    intro name' v hv
    cases List.mem_singleton.1 hv
    refine ⟨Nat.le_refl _, ?_⟩
    show (st.locals ++ [_])[st.locals.length]? = _
    rw [List.getElem?_append_right (Nat.le_refl _), Nat.sub_self]
    rfl

/-- What was bound in a scope of variables of its own is gone with the scope. -/
theorem closed (h : st.opened.Disciplined w st₁) : st.Disciplined w st₁.closed where
  scopes := h.scopes
  next := h.next
  locals := h.locals
  bindings := by
    obtain ⟨new, hbindings, -⟩ := h.bindings
    refine ⟨[], ?_, bindsNew_nil⟩
    show st₁.bindings.tail = _
    rw [hbindings, Variables.tail_extended, Variables.extended_nil]
    rfl

/-- A scope of labels that was opened is the innermost one again when it is closed. -/
theorem left {kind : ScopeKind} (h : (st.entered kind).Disciplined w st₁) :
    st.Disciplined w st₁.left where
  scopes := by
    show st₁.labels.scopes.tail = _
    rw [h.scopes]
    rfl
  next := Nat.le_trans (Nat.le_succ _) h.next
  locals := h.locals
  bindings := h.bindings

end State.Disciplined

/-! ## Steps -/

/-- A step keeps the discipline, whether or not it fails. -/
def Lower.Disciplined {α : Type} (w : PointerWidth) (x : Lower α) : Prop :=
  ∀ st : State, st.Disciplined w (x.after st)

namespace Lower.Disciplined

variable {α β : Type} {w : PointerWidth}

private theorem pure (a : α) : Lower.Disciplined w (Pure.pure a : Lower α) := fun _ => .refl

private theorem ofExcept (r : Except Error α) : Lower.Disciplined w (Lower.ofExcept r) := by
  cases r with
  | ok a => exact fun _ => .refl
  | error e => exact fun _ => .refl

/-- A report keeps to the discipline. -/
theorem report (problem : Problem) (span : Span) :
    Lower.Disciplined w (Lower.report problem span) :=
  fun _ => .noting _

/-- Compiling an expression can only report. -/
private theorem compiling (fc : FunctionContext) (f : Context → Reported α) :
    Lower.Disciplined w (Lower.compiling fc f) :=
  fun _ => .noting _

/-- Declaring a local keeps to the discipline. -/
theorem declare (name : String) (slot : Slot) : Lower.Disciplined w (Lower.declare name slot) :=
  fun _ => .declared _ _

/-- Where the first step fails, nothing follows it. -/
theorem bind {x : Lower α} {f : α → Lower β} (hx : x.Disciplined w)
    (hf : ∀ a, (f a).Disciplined w) : (x >>= f).Disciplined w := by
  intro st
  have hfirst := hx st
  unfold Lower.after at hfirst ⊢
  simp only [Bind.bind, EStateM.bind]
  cases hrun : x st with
  | error e st₁ =>
    rw [hrun] at hfirst
    exact hfirst
  | ok a st₁ =>
    rw [hrun] at hfirst
    exact hfirst.trans (hf a st₁)

/-- A scope of variables is closed on every way out. -/
theorem withVariables {run : Lower α} (h : run.Disciplined w) :
    (Lower.withVariables run).Disciplined w := by
  intro st
  have hclosed : (Lower.withVariables run).after st = (run.after st.opened).closed := by
    unfold Lower.after Lower.withVariables State.opened
    dsimp only
    cases run { st with bindings := [] :: st.bindings } <;> rfl
  rw [hclosed]
  exact (h st.opened).closed

/-- A scope is opened, or the number that it would have had is used up at most. -/
private theorem enter_cases (labels : LabelStack) (kind : ScopeKind) :
    (∃ e next, labels.enter kind = (.error e, ⟨labels.scopes, next⟩) ∧ labels.next ≤ next) ∨
      labels.enter kind =
        (.ok ⟨labels.next, kind⟩, ⟨⟨labels.next, kind⟩ :: labels.scopes, labels.next + 1⟩) := by
  rcases labels.enter_cases kind with ⟨-, henter⟩ | ⟨-, -, henter⟩ | ⟨-, -, henter⟩
  · exact .inl ⟨_, _, henter, Nat.le_refl _⟩
  · exact .inl ⟨_, _, henter, Nat.le_succ _⟩
  · exact .inr henter

/-- Where a scope of labels is entered, the innermost one is left in the end, whether the run inside
    succeeds or not. -/
private theorem after_withLabels {st : State} {kind : ScopeKind} {run : LabelScope → Lower α}
    {scope : LabelScope} {labels : LabelStack} (h : st.labels.enter kind = (.ok scope, labels)) :
    (Lower.withLabels kind run).after st = ((run scope).after { st with labels }).left := by
  unfold Lower.after Lower.withLabels State.left
  rw [h]
  dsimp only
  -- The run inside may fail, and then its error comes out; the scope is closed either way.
  cases run scope { st with labels } with
  | error e st₁ =>
    dsimp only
    rw [LabelStack.leave_snd]
  | ok a st₁ =>
    dsimp only
    rw [← LabelStack.leave_snd st₁.labels scope]
    -- An error of the stack comes out, but the stack is the same.
    generalize st₁.labels.leave scope = left
    obtain ⟨e | u, labels⟩ := left <;> rfl

/-- A scope of labels is closed on every way out, if it could be opened at all. -/
theorem withLabels {kind : ScopeKind} {run : LabelScope → Lower α}
    (h : ∀ scope, (run scope).Disciplined w) : (Lower.withLabels kind run).Disciplined w := by
  intro st
  rcases enter_cases st.labels kind with ⟨e, next, henter, hnext⟩ | henter
  · have hafter : (Lower.withLabels kind run).after st =
        { st with labels := ⟨st.labels.scopes, next⟩ } := by
      unfold Lower.after Lower.withLabels
      rw [henter]
    rw [hafter]
    exact ⟨rfl, hnext, List.prefix_rfl, State.Disciplined.refl.bindings⟩
  · rw [after_withLabels henter]
    have hrun := h (st.nextScope kind) (st.entered kind)
    exact hrun.left

/-- A name is bound to a local right after this is declared. -/
private theorem declareBound (name : String) (ty : Ty) (isConst : Bool) (span : Span)
    {k : Nat → Lower α} (hk : ∀ index, (k index).Disciplined w) :
    Lower.Disciplined w (Lower.declare name (ty.slot w) >>= fun index =>
      Lower.bindVariable name ⟨index, ty, isConst⟩ span >>= fun _ => k index) := by
  intro st
  -- Whether the name is taken decides what is reported, and nothing else.
  have hrest : Lower.Disciplined w
      ((if (st.declared name (ty.slot w)).bindings.isBoundHere name then
        Lower.report (.duplicateVariable name) span else Pure.pure ()) >>= fun _ =>
          k st.locals.length) := by
    refine .bind ?_ fun _ => hk _
    split
    · exact .report _ _
    · exact .pure _
  exact (State.Disciplined.bound name ty isConst).trans (hrest _)

end Lower.Disciplined

/-! ## Statements -/

section

variable {fc : FunctionContext}

/-- A `return` statement compiles its value, or reports. -/
private theorem lowerReturn_keepsScopes (value : Option Expr) (span : Span) :
    (lowerReturn fc value span).Disciplined fc.settings.width := by
  unfold lowerReturn
  cases value with
  | some e =>
    dsimp only
    split
    · exact .bind (.report _ _) fun _ => .pure _
    · exact .bind (.compiling _ _) fun _ => .pure _
  | none =>
    dsimp only
    split
    · exact .pure _
    · exact .bind (.report _ _) fun _ => .pure _

/-- Declarations add their names to the innermost scope. -/
private theorem lowerDeclarators_keepScopes (isConst : Bool) (ds : List Declarator) :
    (lowerDeclarators fc isConst ds).Disciplined fc.settings.width := by
  induction ds with
  | nil => exact .pure _
  | cons d ds ih =>
    -- The value is compiled first, then the local is declared, and only then the name is bound.
    have hdeclare : (declareVariable fc isConst d).Disciplined fc.settings.width := by
      refine .bind (.compiling _ _) fun r => ?_
      refine .declareBound d.ident.name r.2 isConst d.ident.span fun index => ?_
      split <;> exact .pure _
    have hfirst : (lowerDeclarator fc isConst d).Disciplined fc.settings.width := by
      rw [lowerDeclarator_eq]
      split
      · exact .bind (.report _ _) fun _ => hdeclare
      · exact hdeclare
    exact .bind hfirst fun first => .bind ih fun rest => .pure _

/-- A test is compiled, or a second default is reported. -/
private theorem lowerTest_keepsScopes (scope : LabelScope) (compared : Ty) (ordinal : Nat)
    (hasDefault : Bool) (test : Option Expr) (span : Span) :
    (lowerTest fc scope compared ordinal hasDefault test span).Disciplined
      fc.settings.width := by
  unfold lowerTest
  cases test with
  | some e => exact .bind (.compiling _ _) fun guard => .pure _
  | none =>
    dsimp only
    split
    · exact .bind (.report _ _) fun _ => .pure _
    · exact .pure _

/-- A jump looks its target up and changes nothing. -/
private theorem jump_keepsScopes {w : PointerWidth} (target : LabelStack → Except Error Label) :
    Lower.Disciplined w (do
      let label ← Lower.ofExcept (target (← get).labels)
      pure (Node.br label)) := by
  intro st
  have hjump : Lower.Disciplined w
      (Lower.ofExcept (target st.labels) >>= fun label => pure (Node.br label)) :=
    .bind (.ofExcept _) fun label => .pure _
  exact hjump st

mutual

private theorem lower_keepsScopes :
    (s : Stmt) → (lower fc s).Disciplined fc.settings.width
  | .exprStmt _ e => .compiling _ _
  | .varDecl _ kind ds => .bind (lowerDeclarators_keepScopes _ ds) fun sets => .pure _
  | .returnStmt span value => lowerReturn_keepsScopes value span
  | .ifStmt _ c t e => by
    refine .bind (.compiling _ _) fun c => ?_
    refine .bind (lower_keepsScopes t) fun t => ?_
    refine .bind (lowerOption_keepsScopes e) fun e => ?_
    cases e with
    | none => exact .pure _
    | some e => exact .pure _
  | .forStmt _ init c u body => by
    -- The scope of variables holds the initial part, and the labels are opened inside of it.
    refine .withVariables ?_
    refine .bind (lowerOption_keepsScopes init) fun init => ?_
    refine .withLabels fun scope => ?_
    refine .bind (lowerOption_keepsScopes body) fun body => ?_
    exact .bind (.compiling _ _) fun c => .bind (.compiling _ _) fun u => .pure _
  | .whileStmt _ c body => by
    refine .withLabels fun scope => ?_
    refine .bind (lowerOption_keepsScopes body) fun body => ?_
    exact .bind (.compiling _ _) fun c => .pure _
  | .doWhile _ body c => by
    refine .withLabels fun scope => ?_
    refine .bind (lower_keepsScopes body) fun body => ?_
    exact .bind (.compiling _ _) fun c => .pure _
  | .block _ ss => .withVariables (.bind (lowerAll_keepsScopes ss) fun nodes => .pure _)
  | .breakStmt _ => jump_keepsScopes LabelStack.breakTarget
  | .continueStmt _ => jump_keepsScopes LabelStack.continueTarget
  | .switchStmt _ d [] => .compiling _ _
  | .switchStmt _ d (clause :: clauses) => by
    refine .withLabels fun scope => ?_
    refine .bind (.compiling _ _) fun r => ?_
    refine .bind (.declare _ _) fun condition => ?_
    -- The clauses share a scope of variables, which is closed before the switch is put together.
    refine .bind (.withVariables ?_) fun cases => .ofExcept _
    exact lowerClauses_keepScopes scope r.2 0 false (clause :: clauses)
  | .empty _ => .pure _
termination_by structural s => s

private theorem lowerOption_keepsScopes :
    (s : Option Stmt) → (lowerOption fc s).Disciplined fc.settings.width
  | none => .pure _
  | some s => .bind (lower_keepsScopes s) fun _ => .pure _
termination_by structural s => s

private theorem lowerAll_keepsScopes :
    (ss : List Stmt) → (lowerAll fc ss).Disciplined fc.settings.width
  | [] => .pure _
  | s :: ss => .bind (lower_keepsScopes s) fun _ =>
    .bind (lowerAll_keepsScopes ss) fun _ => .pure _
termination_by structural ss => ss

private theorem lowerClauses_keepScopes (scope : LabelScope) (compared : Ty) (ordinal : Nat)
    (hasDefault : Bool) : (clauses : List Clause) →
    (lowerClauses fc scope compared ordinal hasDefault clauses).Disciplined fc.settings.width
  | [] => .pure _
  | .mk test body span :: clauses => by
    refine .bind (lowerTest_keepsScopes scope compared ordinal hasDefault test span) fun r => ?_
    refine .bind (lowerAll_keepsScopes body) fun nodes => ?_
    exact .bind (lowerClauses_keepScopes scope compared _ _ clauses) fun rest => .pure _
termination_by structural clauses => clauses

end

end

/-- Lowering a statement, whether or not it fails, leaves the open scopes of labels as they were,
    and no number of a scope is given out again. Of the scopes of variables only the innermost one
    may have changed: new bindings stand in front of the others there, each of a name to a local
    that was declared under this name while the statement was lowered. -/
theorem lower_disciplined (fc : FunctionContext) (s : Stmt) (st : State) :
    let st' := (lower fc s).after st
    st'.labels.scopes = st.labels.scopes ∧ st.labels.next ≤ st'.labels.next ∧
      st'.bindings.length = st.bindings.length ∧ st'.bindings.tail = st.bindings.tail ∧
      ∃ new : VariableScope, st'.bindings.head? = st.bindings.head?.map (new ++ ·) ∧
        ∀ name v, (name, v) ∈ new → st.locals.length ≤ v.index ∧ v.index < st'.locals.length ∧
          st'.locals[v.index]? = some ⟨name, v.ty.slot fc.settings.width⟩ := by
  intro st'
  have h : st.Disciplined fc.settings.width st' := lower_keepsScopes s st
  -- What is added, and where, is read off the discipline.
  obtain ⟨new, hbindings, hnew⟩ := h.bindings
  refine ⟨h.scopes, h.next, ?_, ?_, new, ?_, ?_⟩
  · rw [hbindings, Variables.length_extended]
  · rw [hbindings, Variables.tail_extended]
  · rw [hbindings, Variables.head?_extended]
  · intro name v hv
    obtain ⟨hindex, hlocal⟩ := hnew name v hv
    exact ⟨hindex, (List.getElem?_eq_some_iff.1 hlocal).1, hlocal⟩

/-- A `continue` in a switch that no loop is around: lowering fails inside the scopes of the switch,
    and both are closed. -/
example :
    let s := Stmt.switchStmt .empty (.literal .empty (.int 0))
      [.mk none [.varDecl .empty .letVar [⟨⟨.empty, "x"⟩, some .i32, none⟩], .continueStmt .empty]
        .empty]
    let st := (lower ⟨{}, {}, .void⟩ s).after {}
    (lower ⟨{}, {}, .void⟩ s {} = .error .continueOutsideLoop st) ∧
      st.labels = ⟨[], 1⟩ ∧ st.bindings = [[]] ∧ st.locals.length = 2 :=
  ⟨rfl, rfl, rfl, rfl⟩

end Weir.Lowering
