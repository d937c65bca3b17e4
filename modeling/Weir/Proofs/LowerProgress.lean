import Weir.Proofs.LowerStep

/-!
# Progress of lowering

Lowering a statement closes every scope of labels that it opens, and otherwise only adds to its
state: numbers of scopes go up, and locals and reports are appended. Variables in scope always have
a local of the slot of their type.

## Key results

- `lower_advances`, `lowerAll_advances`, `lowerClauses_advances`: what lowering does to its state
- `State.Advances.reports_eq`: where nothing was reported in the end, nothing was reported before
- `lower_if_quiet`, `lower_for_quiet`, `lowerClauses_cons_quiet` and their siblings: the parts of a
  statement that reports nothing report nothing
- `lowerClauses_labels`, `lowerClauses_own_labels`: the labels of the clauses of a switch
-/

namespace Weir.Lowering

open Weir.Code (Local Node Slot)
open Weir.Source (Clause Declarator Expr PointerWidth Span Stmt Ty)

/-- Binding a name brings one variable into scope. -/
theorem Variables.mem_bind {scopes : Variables} {scope : VariableScope} {name name' : String}
    {v v' : Variable} (hscope : scope ∈ scopes.bind name v) (hv : (name', v') ∈ scope) :
    v' = v ∨ ∃ scope ∈ scopes, (name', v') ∈ scope := by
  -- Only the innermost scope changes, and there only the one name.
  unfold Variables.bind at hscope
  split at hscope
  next => cases hscope
  next innermost rest =>
    rcases List.mem_cons.1 hscope with rfl | hrest
    · rcases List.mem_cons.1 hv with heq | hold
      · cases heq
        exact .inl rfl
      · exact .inr ⟨innermost, List.mem_cons_self, hold⟩
    · exact .inr ⟨scope, List.mem_cons_of_mem _ hrest, hv⟩

/-- Every variable in scope has a local in the slot of its type. -/
def State.WellBound (w : PointerWidth) (st : State) : Prop :=
  ∀ scope ∈ st.bindings, ∀ name v, (name, v) ∈ scope →
    st.locals[v.index]?.map Local.slot = some (v.ty.slot w)

/-- The second state comes after the first one: the same label scopes are open, nothing that was
    numbered, declared or reported is lost, and variables that come into scope have new locals. -/
structure State.Advances (w : PointerWidth) (st st' : State) : Prop where
  scopes : st'.labels.scopes = st.labels.scopes
  next : st.labels.next ≤ st'.labels.next
  locals : st.locals <+: st'.locals
  reports : st.reports <+: st'.reports
  wellBound : st.WellBound w → st'.WellBound w
  newcomers : ∀ scope ∈ st'.bindings, ∀ name v, (name, v) ∈ scope →
    (∃ scope ∈ st.bindings, (name, v) ∈ scope) ∨ st.locals.length ≤ v.index

/-- A list between a list and itself. -/
theorem eq_of_prefix_of_prefix {α : Type} {as bs cs : List α} (h : as <+: bs)
    (h' : bs <+: cs) (hcs : cs = as) : bs = as := by
  have hlen := h'.length_le
  rw [hcs] at hlen
  exact (h.eq_of_length_le hlen).symm

namespace State

variable {w : PointerWidth} {st st₁ st₂ : State}

/-- Dropping variables and adding locals keeps every variable on a local of its slot. -/
theorem WellBound.mono {bindings : Variables} {locals : List Local}
    (h : st.WellBound w) (hbindings : ∀ scope ∈ bindings, scope = [] ∨ scope ∈ st.bindings)
    (hlocals : st.locals <+: locals) : { st with bindings, locals }.WellBound w := by
  intro scope hscope name v hv
  -- A scope is empty, or it is an old one whose variables keep their locals.
  rcases hbindings scope hscope with rfl | hmem
  · cases hv
  · have hlocal := h scope hmem name v hv
    obtain ⟨l, hl, hslot⟩ := Option.map_eq_some_iff.1 hlocal
    obtain ⟨more, rfl⟩ := hlocals
    show (st.locals ++ more)[v.index]?.map Local.slot = _
    rw [List.getElem?_append_left (List.getElem?_eq_some_iff.1 hl).1, hl]
    exact congrArg some hslot

/-- An empty scope binds nothing, so opening one keeps the variables on their locals. -/
theorem WellBound.opened (h : st.WellBound w) : st.opened.WellBound w :=
  h.mono (fun _ hscope => List.mem_cons.1 hscope) List.prefix_rfl

/-- A name may be bound to a variable that has a local in the slot of its type. -/
theorem WellBound.bound (h : st.WellBound w) {name : String} {v : Variable}
    (hlocal : st.locals[v.index]?.map Local.slot = some (v.ty.slot w)) :
    (st.bound name v).WellBound w := by
  intro scope hscope name' v' hv
  rcases Variables.mem_bind hscope hv with rfl | ⟨scope', hscope', hv'⟩
  · exact hlocal
  · exact h scope' hscope' name' v' hv'

/-- What a name stands for has a local in the slot of its type. -/
theorem WellBound.find? (h : st.WellBound w) {name : String} {v : Variable}
    (hfind : st.bindings.find? name = some v) :
    st.locals[v.index]?.map Local.slot = some (v.ty.slot w) := by
  obtain ⟨scope, hscope, hlookup⟩ := List.exists_of_findSome?_eq_some hfind
  obtain ⟨pre, post, heq, -⟩ := List.lookup_eq_some_iff.1 hlookup
  exact h scope hscope name v (by simp [heq])

namespace Advances

theorem refl : st.Advances w st :=
  ⟨rfl, Nat.le_refl _, List.prefix_rfl, List.prefix_rfl, fun h => h,
    fun scope hscope _ _ hv => .inl ⟨scope, hscope, hv⟩⟩

/-- What two steps in a row change is what each of them may change. -/
theorem trans (h : st.Advances w st₁) (h' : st₁.Advances w st₂) : st.Advances w st₂ where
  scopes := h'.scopes.trans h.scopes
  next := Nat.le_trans h.next h'.next
  locals := h.locals.trans h'.locals
  reports := h.reports.trans h'.reports
  wellBound hst := h'.wellBound (h.wellBound hst)
  newcomers scope hscope name v hv := by
    -- A variable the second step found is in a scope of the first step's result.
    rcases h'.newcomers scope hscope name v hv with ⟨scope₁, hscope₁, hv₁⟩ | hnew
    · exact h.newcomers scope₁ hscope₁ name v hv₁
    · exact .inr (Nat.le_trans h.locals.length_le hnew)

/-- A report is added behind those already there, and nothing else changes. -/
theorem noting (ds : List Diagnostic) : st.Advances w (st.noting ds) :=
  ⟨rfl, Nat.le_refl _, List.prefix_rfl, List.prefix_append _ _, fun h => h,
    fun scope hscope _ _ hv => .inl ⟨scope, hscope, hv⟩⟩

/-- A scope of variables that was opened is closed again. -/
private theorem closed (h : st.opened.Advances w st₁) : st.Advances w st₁.closed where
  scopes := h.scopes
  next := h.next
  locals := h.locals
  reports := h.reports
  wellBound hst := by
    -- The other scopes remain, and locals are never given up.
    have hst₁ := h.wellBound hst.opened
    exact hst₁.mono (fun scope hscope => .inr (List.mem_of_mem_tail hscope)) List.prefix_rfl
  newcomers scope hscope name v hv := by
    refine (h.newcomers scope (List.mem_of_mem_tail hscope) name v hv).imp_left ?_
    rintro ⟨scope₀, hscope₀, hv₀⟩
    -- The scope that was opened was empty.
    rcases List.mem_cons.1 hscope₀ with rfl | hscope₀
    · cases hv₀
    · exact ⟨scope₀, hscope₀, hv₀⟩

/-- A scope of labels that was opened is closed again. -/
theorem left {kind : ScopeKind} (h : (st.entered kind).Advances w st₁) :
    st.Advances w st₁.left where
  scopes := by
    show st₁.labels.scopes.tail = st.labels.scopes
    rw [h.scopes]
    rfl
  next := Nat.le_trans (Nat.le_succ _) h.next
  locals := h.locals
  reports := h.reports
  wellBound hst := h.wellBound hst
  newcomers := h.newcomers

/-- A declared local comes behind the others, and no variable is bound to it yet. -/
theorem declared {name : String} {slot : Slot} : st.Advances w (st.declared name slot) where
  scopes := rfl
  next := Nat.le_refl _
  locals := List.prefix_append _ _
  reports := List.prefix_rfl
  wellBound h := h.mono (fun _ hscope => .inr hscope) (List.prefix_append _ _)
  newcomers scope hscope _ _ hv := .inl ⟨scope, hscope, hv⟩

/-- A variable is bound to a new local in the slot of its type. -/
theorem bound {name : String} {ty : Ty} {isConst : Bool} :
    st.Advances w ((st.declared name (ty.slot w)).bound name ⟨st.locals.length, ty, isConst⟩) where
  scopes := rfl
  next := Nat.le_refl _
  locals := List.prefix_append _ _
  reports := List.prefix_rfl
  wellBound h := by
    have hdeclared : (st.declared name (ty.slot w)).WellBound w := declared.wellBound h
    exact hdeclared.bound (st.slot_declared name _)
  newcomers scope hscope name' v hv := by
    rcases Variables.mem_bind hscope hv with rfl | hold
    · exact .inr (Nat.le_refl _)
    · exact .inl hold

/-- Where nothing was reported in the end, nothing was reported before. -/
theorem reports_eq (h : st.Advances w st₁) (h' : st₁.Advances w st₂)
    (hquiet : st₂.reports = st.reports) : st₁.reports = st.reports :=
  eq_of_prefix_of_prefix h.reports h'.reports hquiet

end Advances

end State

/-! ## Statements -/

variable {fc : FunctionContext} {st st' : State}

/-- A declarator adds one local, binds one variable and may report. -/
theorem lowerDeclarator_advances {isConst : Bool} {d : Declarator} {ns : List Node}
    (h : lowerDeclarator fc isConst d st = .ok ns st') : st.Advances fc.settings.width st' := by
  obtain ⟨-, reports, rfl⟩ := lowerDeclarator_eq_ok h
  exact State.Advances.bound.trans (.noting _)

/-- Declarators advance the state one after the other. -/
theorem lowerDeclarators_advances {isConst : Bool} {ds : List Declarator} {ns : List Node}
    (h : lowerDeclarators fc isConst ds st = .ok ns st') : st.Advances fc.settings.width st' := by
  -- The declarators run in the order of the list, each in the state of the one before.
  induction ds generalizing st ns with
  | nil =>
    obtain ⟨-, rfl⟩ := lowerDeclarators_nil h
    exact .refl
  | cons d ds ih =>
    obtain ⟨first, st₁, rest, hfirst, hrest, -⟩ := lowerDeclarators_cons h
    exact (lowerDeclarator_advances hfirst).trans (ih hrest)

/-- The test of a clause changes no more than the reports. -/
theorem lowerTest_advances {scope : LabelScope} {compared : Ty} {ordinal : Nat}
    {hasDefault : Bool} {test : Option Expr} {span : Span} {r : Code.Label × Option Node}
    (h : lowerTest fc scope compared ordinal hasDefault test span st = .ok r st') :
    st.Advances fc.settings.width st' := by
  rcases lowerTest_eq_ok h with ⟨e, -, -, rfl⟩ | ⟨-, -, -, rfl⟩ | ⟨-, -, -, d, rfl⟩
  · exact .noting _
  · exact .refl
  · exact .noting _

mutual

/-- Lowering a statement closes the scopes of labels that it opens, and otherwise only adds to its
    state. -/
theorem lower_advances : (s : Stmt) → ∀ {st st' : State} {n : Node},
    lower fc s st = .ok n st' → st.Advances fc.settings.width st'
  | .exprStmt _ e, st, st', n, h => by
    obtain ⟨-, rfl⟩ := lower_exprStmt h
    exact .noting _
  | .varDecl _ kind ds, st, st', n, h => by
    obtain ⟨sets, hsets, -⟩ := lower_varDecl h
    exact lowerDeclarators_advances hsets
  | .returnStmt _ value, st, st', n, h => by
    rcases lower_return h with ⟨e, -, -, -, rfl⟩ | ⟨-, -, -, rfl⟩ | ⟨-, d, rfl⟩
    · exact .noting _
    · exact .refl
    · exact .noting _
  | .ifStmt _ c t e, st, st', n, h => by
    obtain ⟨tn, st₁, en, ht, he, -⟩ := lower_if h
    exact (State.Advances.noting _).trans ((lower_advances t ht).trans (lowerOption_advances e he))
  | .forStmt _ init c u body, st, st', n, h => by
    obtain ⟨i, st₁, bn, st₂, hinit, hbody, -, -, rfl⟩ := lower_for h
    exact ((lowerOption_advances init hinit).trans
      ((lowerOption_advances body hbody).trans (.noting _)).left).closed
  | .whileStmt _ c body, st, st', n, h => by
    obtain ⟨bn, st₁, hbody, -, rfl⟩ := lower_while h
    exact ((lowerOption_advances body hbody).trans (.noting _)).left
  | .doWhile _ body c, st, st', n, h => by
    obtain ⟨bn, st₁, hbody, -, rfl⟩ := lower_doWhile h
    exact ((lower_advances body hbody).trans (.noting _)).left
  | .block _ ss, st, st', n, h => by
    obtain ⟨nodes, st₁, hnodes, -, rfl⟩ := lower_block h
    exact (lowerAll_advances ss hnodes).closed
  | .breakStmt _, st, st', n, h => by
    obtain ⟨-, -, -, rfl⟩ := lower_break h
    exact .refl
  | .continueStmt _, st, st', n, h => by
    obtain ⟨-, -, -, rfl⟩ := lower_continue h
    exact .refl
  | .switchStmt _ d [], st, st', n, h => by
    obtain ⟨-, rfl⟩ := lower_switch_nil h
    exact .noting _
  | .switchStmt _ d (clause :: clauses), st, st', n, h => by
    obtain ⟨cases, st₁, hclauses, -, rfl⟩ := lower_switch (by simp) h
    -- The reports of the discriminant and its local come before what the clauses add.
    have hinner := (lowerClauses_advances (clause :: clauses) hclauses).closed
    exact ((State.Advances.noting _).trans (State.Advances.declared.trans hinner)).left
  | .empty _, st, st', n, h => by
    obtain ⟨-, rfl⟩ := lower_empty h
    exact .refl
termination_by structural s => s

theorem lowerOption_advances : (s : Option Stmt) → ∀ {st st' : State} {o : Option Node},
    lowerOption fc s st = .ok o st' → st.Advances fc.settings.width st'
  | none, st, st', o, h => by
    obtain ⟨-, rfl⟩ := lowerOption_none h
    exact .refl
  | some s, st, st', o, h => by
    obtain ⟨node, hnode, -⟩ := lowerOption_some h
    exact lower_advances s hnode
termination_by structural s => s

theorem lowerAll_advances : (ss : List Stmt) → ∀ {st st' : State} {ns : List Node},
    lowerAll fc ss st = .ok ns st' → st.Advances fc.settings.width st'
  | [], st, st', ns, h => by
    obtain ⟨-, rfl⟩ := lowerAll_nil h
    exact .refl
  | s :: ss, st, st', ns, h => by
    obtain ⟨node, st₁, nodes, hnode, hnodes, -⟩ := lowerAll_cons h
    exact (lower_advances s hnode).trans (lowerAll_advances ss hnodes)
termination_by structural ss => ss

/-- Each clause adds what its test reports, and then what its body adds. -/
theorem lowerClauses_advances {scope : LabelScope} {compared : Ty} : (clauses : List Clause) →
    ∀ {ordinal : Nat} {hasDefault : Bool} {st st' : State} {cases : List Case},
    lowerClauses fc scope compared ordinal hasDefault clauses st = .ok cases st' →
    st.Advances fc.settings.width st'
  | [], ordinal, hasDefault, st, st', cases, h => by
    obtain ⟨-, rfl⟩ := lowerClauses_nil h
    exact .refl
  | .mk test body span :: clauses, ordinal, hasDefault, st, st', cases, h => by
    obtain ⟨r, st₁, nodes, st₂, rest, htest, hbody, hrest, -⟩ := lowerClauses_cons h
    exact (lowerTest_advances htest).trans
      ((lowerAll_advances body hbody).trans (lowerClauses_advances clauses hrest))
termination_by structural clauses => clauses

end

/-! ## Statements that report nothing -/

section

variable {n : Node} {span : Span}

/-- Nothing was reported if no reports came to those that were there. -/
private theorem eq_nil_of_noting {ds : List Diagnostic} {st : State}
    (h : (st.noting ds).reports = st.reports) : ds = [] :=
  List.append_right_eq_self.1 h

/-- What is compiled last reports nothing, and leaves the state as it is. -/
private theorem noting_quiet {st₁ : State} {ds : List Diagnostic}
    (hadv : st.Advances fc.settings.width st₁)
    (hquiet : (st₁.noting ds).reports = st.reports) :
    st₁.reports = st.reports ∧ ds = [] ∧ st₁.noting ds = st₁ := by
  have hreports := hadv.reports_eq (.noting ds) hquiet
  have hlast := hquiet.trans hreports.symm
  exact ⟨hreports, eq_nil_of_noting hlast, State.noting_eq_self hlast⟩

/-- An expression statement that is not reported leaves the state as it is. -/
theorem lower_exprStmt_quiet {e : Expr} (h : lower fc (.exprStmt span e) st = .ok n st')
    (hquiet : st'.reports = st.reports) :
    let r := compileDiscarded (fc.context st) e
    r.reports = [] ∧ n = r.value ∧ st' = st := by
  obtain ⟨rfl, rfl⟩ := lower_exprStmt h
  exact ⟨eq_nil_of_noting hquiet, rfl, State.noting_eq_self hquiet⟩

/-- A `return` statement that is not reported fits the result of its function. -/
theorem lower_return_quiet {value : Option Expr}
    (h : lower fc (.returnStmt span value) st = .ok n st') (hquiet : st'.reports = st.reports) :
    (∃ e, value = some e ∧ fc.result.isVoid = false ∧
        let r := compileReturned (fc.context st) e fc.result
        r.reports = [] ∧ n = .retValue r.value ∧ st' = st) ∨
      (value = none ∧ fc.result.isVoid ∧ n = .ret ∧ st' = st) := by
  rcases lower_return h with ⟨e, rfl, hvoid, rfl, rfl⟩ | hbare | ⟨-, d, rfl⟩
  · exact .inl ⟨e, rfl, hvoid, eq_nil_of_noting hquiet, rfl, State.noting_eq_self hquiet⟩
  · exact .inr hbare
  · cases eq_nil_of_noting hquiet

/-- Declarators that are not reported, one after the other. -/
theorem lowerDeclarators_cons_quiet {isConst : Bool} {d : Declarator} {ds : List Declarator}
    {ns : List Node} (h : lowerDeclarators fc isConst (d :: ds) st = .ok ns st')
    (hquiet : st'.reports = st.reports) :
    ∃ first st₁ rest, lowerDeclarator fc isConst d st = .ok first st₁ ∧
      st₁.reports = st.reports ∧ lowerDeclarators fc isConst ds st₁ = .ok rest st' ∧
      st'.reports = st₁.reports ∧ ns = first ++ rest := by
  obtain ⟨first, st₁, rest, hfirst, hrest, rfl⟩ := lowerDeclarators_cons h
  have hreports := (lowerDeclarator_advances hfirst).reports_eq
    (lowerDeclarators_advances hrest) hquiet
  exact ⟨first, st₁, rest, hfirst, hreports, hrest, hquiet.trans hreports.symm, rfl⟩

/-- Statements that are not reported, one after the other. -/
theorem lowerAll_cons_quiet {s : Stmt} {ss : List Stmt} {ns : List Node}
    (h : lowerAll fc (s :: ss) st = .ok ns st') (hquiet : st'.reports = st.reports) :
    ∃ node st₁ nodes, lower fc s st = .ok node st₁ ∧ st₁.reports = st.reports ∧
      lowerAll fc ss st₁ = .ok nodes st' ∧ st'.reports = st₁.reports ∧ ns = node :: nodes := by
  obtain ⟨node, st₁, nodes, hnode, hnodes, rfl⟩ := lowerAll_cons h
  have hreports := (lower_advances s hnode).reports_eq (lowerAll_advances ss hnodes) hquiet
  exact ⟨node, st₁, nodes, hnode, hreports, hnodes, hquiet.trans hreports.symm, rfl⟩

/-- The condition of an `if` statement that is not reported leaves the state to the branches. -/
theorem lower_if_quiet {c : Expr} {t : Stmt} {e : Option Stmt}
    (h : lower fc (.ifStmt span c t e) st = .ok n st') (hquiet : st'.reports = st.reports) :
    let test := compileCondition (fc.context st) c
    test.reports = [] ∧ ∃ tn st₁ en, lower fc t st = .ok tn st₁ ∧ st₁.reports = st.reports ∧
      lowerOption fc e st₁ = .ok en st' ∧ st'.reports = st₁.reports ∧
      n = match en with
        | none => .ifThen .none test.value tn
        | some en => .ifElse .none test.value tn en := by
  obtain ⟨tn, st₁, en, ht, he, hn⟩ := lower_if h
  have hthen := lower_advances t ht
  have helse := lowerOption_advances e he
  -- The reports only grow, so both ends agreeing leaves nothing for any part between them.
  have hnoted := (State.Advances.noting _).reports_eq (hthen.trans helse) hquiet
  rw [State.noting_eq_self hnoted] at ht hthen
  have hreports := hthen.reports_eq helse hquiet
  exact ⟨eq_nil_of_noting hnoted, tn, st₁, en, ht, hreports, he, hquiet.trans hreports.symm, hn⟩

/-- The condition of a `while` statement is compiled in the state after the body, and reports
    nothing. -/
theorem lower_while_quiet {c : Expr} {body : Option Stmt}
    (h : lower fc (.whileStmt span c body) st = .ok n st') (hquiet : st'.reports = st.reports) :
    ∃ bn st₁, lowerOption fc body (st.entered .loop) = .ok bn st₁ ∧ st₁.reports = st.reports ∧
      let test := compileCondition (fc.context st₁) c
      test.reports = [] ∧ n = whileNode (st.nextScope .loop) test.value (bn.getD .nop) ∧
        st' = st₁.left := by
  obtain ⟨bn, st₁, hbody, rfl, rfl⟩ := lower_while h
  obtain ⟨hreports, htest, hsame⟩ := noting_quiet (lowerOption_advances body hbody) hquiet
  exact ⟨bn, st₁, hbody, hreports, htest, rfl, congrArg State.left hsame⟩

/-- The condition of a `do` statement is compiled in the state after the body, and reports
    nothing. -/
theorem lower_doWhile_quiet {c : Expr} {body : Stmt}
    (h : lower fc (.doWhile span body c) st = .ok n st') (hquiet : st'.reports = st.reports) :
    ∃ bn st₁, lower fc body (st.entered .loop) = .ok bn st₁ ∧ st₁.reports = st.reports ∧
      let test := compileCondition (fc.context st₁) c
      test.reports = [] ∧ n = doWhileNode (st.nextScope .loop) test.value bn ∧
        st' = st₁.left := by
  obtain ⟨bn, st₁, hbody, rfl, rfl⟩ := lower_doWhile h
  obtain ⟨hreports, htest, hsame⟩ := noting_quiet (lower_advances body hbody) hquiet
  exact ⟨bn, st₁, hbody, hreports, htest, rfl, congrArg State.left hsame⟩

/-- The condition and the update of a `for` statement are compiled last, and report nothing. -/
theorem lower_for_quiet {init body : Option Stmt} {c u : Option Expr}
    (h : lower fc (.forStmt span init c u body) st = .ok n st')
    (hquiet : st'.reports = st.reports) :
    ∃ i st₁ bn st₂, lowerOption fc init st.opened = .ok i st₁ ∧ st₁.reports = st.reports ∧
      lowerOption fc body (st₁.entered .loop) = .ok bn st₂ ∧ st₂.reports = st₁.reports ∧
      (∀ s ∈ st₁.labels.scopes, s.id ≠ st₁.labels.next) ∧
      let test := c.mapM (compileCondition (fc.context st₂))
      let update := u.mapM (compileDiscarded (fc.context st₂))
      test.reports = [] ∧ update.reports = [] ∧
        n = forNode (st₁.nextScope .loop) i test.value update.value (bn.getD .nop) ∧
        st' = st₂.left.closed := by
  obtain ⟨i, st₁, bn, st₂, hinit, hbody, hfresh, rfl, rfl⟩ := lower_for h
  have hround := lowerOption_advances body hbody
  have hreports := (lowerOption_advances init hinit).reports_eq
    (hround.trans (.noting _)).left hquiet
  -- The header is compiled after the body, so its reports are the last ones.
  obtain ⟨hbodyReports, hlast, hsame⟩ := noting_quiet hround (hquiet.trans hreports.symm)
  obtain ⟨htest, hupdate⟩ := List.append_eq_nil_iff.1 hlast
  exact ⟨i, st₁, bn, st₂, hinit, hreports, hbody, hbodyReports, hfresh, htest, hupdate, rfl,
    congrArg (fun st => st.left.closed) hsame⟩

/-- A switch without clauses that is not reported only compiles its discriminant. -/
theorem lower_switch_nil_quiet {d : Expr} (h : lower fc (.switchStmt span d []) st = .ok n st')
    (hquiet : st'.reports = st.reports) :
    let r := compileDropped (fc.context st) d
    r.reports = [] ∧ n = r.value ∧ st' = st := by
  obtain ⟨rfl, rfl⟩ := lower_switch_nil h
  exact ⟨eq_nil_of_noting hquiet, rfl, State.noting_eq_self hquiet⟩

/-- Nothing was reported on the way into a switch that is not reported. -/
theorem lower_switch_quiet {d : Expr} {clauses : List Clause} (hne : clauses ≠ [])
    (h : lower fc (.switchStmt span d clauses) st = .ok n st')
    (hquiet : st'.reports = st.reports) :
    let r := compileDiscriminant (fc.context st) d
    r.reports = [] ∧ ∃ cases st₁, lowerClauses fc (st.nextScope .switch) r.value.2 0 false clauses
        (st.switched fc d) = .ok cases st₁ ∧ st₁.reports = (st.switched fc d).reports ∧
      dispatchNode (st.nextScope .switch) st.locals.length (r.value.2.slot fc.settings.width)
        r.value.1 cases = .ok n ∧
      st' = st₁.closed.left := by
  obtain ⟨cases, st₁, hclauses, hdispatch, rfl⟩ := lower_switch hne h
  -- The clauses start with the reports of the discriminant already noted.
  have hopened : (st.switched fc d).reports = st.reports := eq_of_prefix_of_prefix
    (List.prefix_append _ _) (lowerClauses_advances clauses hclauses).reports hquiet
  exact ⟨List.append_right_eq_self.1 hopened, cases, st₁, hclauses, hquiet.trans hopened.symm,
    hdispatch, rfl⟩

/-- A clause of a switch that is not reported: its body is lowered where its guard is compiled. -/
theorem lowerClauses_cons_quiet {scope : LabelScope} {compared : Ty} {ordinal : Nat}
    {hasDefault : Bool} {test : Option Expr} {body : List Stmt} {clauses : List Clause}
    {cases : List Case}
    (h : lowerClauses fc scope compared ordinal hasDefault (.mk test body span :: clauses) st =
      .ok cases st') (hquiet : st'.reports = st.reports) :
    (∀ e ∈ test, (compileGuard (fc.context st) compared e).reports = []) ∧
      ∃ label nodes st₁ rest, lowerAll fc body st = .ok nodes st₁ ∧ st₁.reports = st.reports ∧
        lowerClauses fc scope compared (ordinal + 1) (hasDefault || test.isNone) clauses st₁ =
          .ok rest st' ∧ st'.reports = st₁.reports ∧
        cases = ⟨label, test.map fun e => (compileGuard (fc.context st) compared e).value,
          nodes⟩ :: rest := by
  obtain ⟨r, st₁, nodes, st₂, rest, htest, hbody, hrest, rfl⟩ := lowerClauses_cons h
  have hadv := lowerAll_advances body hbody
  have hadv' := lowerClauses_advances clauses hrest
  have hreports := (lowerTest_advances htest).reports_eq (hadv.trans hadv') hquiet
  obtain ⟨rfl, hguard, hnone⟩ : st₁ = st ∧
      r.2 = test.map (fun e => (compileGuard (fc.context st) compared e).value) ∧
      ∀ e ∈ test, (compileGuard (fc.context st) compared e).reports = [] := by
    rcases lowerTest_eq_ok htest with
      ⟨e, rfl, rfl, rfl⟩ | ⟨rfl, -, rfl, rfl⟩ | ⟨rfl, -, rfl, d, rfl⟩
    · refine ⟨State.noting_eq_self hreports, rfl, fun e' he' => ?_⟩
      cases he'
      exact eq_nil_of_noting hreports
    · exact ⟨rfl, rfl, fun e he => by cases he⟩
    -- A second default clause is reported.
    · cases eq_nil_of_noting hreports
  have hbodyReports := hadv.reports_eq hadv' hquiet
  refine ⟨hnone, r.1, nodes, st₂, rest, hbody, hbodyReports, hrest,
    hquiet.trans hbodyReports.symm, ?_⟩
  rw [hguard]

end

/-! ## Switches -/

/-- The clauses of a switch have labels of its scope, all of them different. -/
theorem lowerClauses_labels {scope : LabelScope} {compared : Ty} {clauses : List Clause}
    {ordinal : Nat} {hasDefault : Bool} {cases : List Case}
    (h : lowerClauses fc scope compared ordinal hasDefault clauses st = .ok cases st') :
    (cases.map Case.label).Nodup ∧ ∀ c ∈ cases,
      (∃ k, ordinal ≤ k ∧ c.label = scope.label (.clause k)) ∨
        (hasDefault = false ∧ c.label = scope.label .fallback) := by
  induction clauses generalizing ordinal hasDefault st cases with
  | nil =>
    obtain ⟨rfl, -⟩ := lowerClauses_nil h
    simp
  | cons clause clauses ih =>
    obtain ⟨test, body, span⟩ := clause
    obtain ⟨r, st₁, nodes, st₂, rest, htest, hbody, hrest, rfl⟩ := lowerClauses_cons h
    obtain ⟨hnodup, hlabels⟩ := ih hrest
    have hlater : ∀ c ∈ rest, (∃ k, ordinal ≤ k ∧ c.label = scope.label (.clause k)) ∨
        (hasDefault = false ∧ c.label = scope.label .fallback) := by
      intro c hc
      rcases hlabels c hc with ⟨k, hk, hlabel⟩ | ⟨hnone, hlabel⟩
      · exact .inl ⟨k, by omega, hlabel⟩
      · exact .inr ⟨by simpa using (Bool.or_eq_false_iff.1 hnone).1, hlabel⟩
    -- Later clauses are past the ordinal of this one.
    have hclause : scope.label (.clause ordinal) ∉ rest.map Case.label := by
      intro hmem
      obtain ⟨c, hc, heq⟩ := List.mem_map.1 hmem
      rcases hlabels c hc with ⟨k, hk, hlabel⟩ | ⟨-, hlabel⟩
      · rw [hlabel] at heq
        simp only [LabelScope.label, Code.Label.mk.injEq, Code.LabelKind.clause.injEq,
          and_true] at heq
        omega
      · rw [hlabel] at heq
        cases heq
    have hfirst : ((∃ k, ordinal ≤ k ∧ r.1 = scope.label (.clause k)) ∨
        (hasDefault = false ∧ r.1 = scope.label .fallback)) ∧ r.1 ∉ rest.map Case.label := by
      rcases lowerTest_eq_ok htest with ⟨e, rfl, rfl, -⟩ | ⟨rfl, hnone, rfl, -⟩ | ⟨rfl, -, rfl, -⟩
      · exact ⟨.inl ⟨ordinal, Nat.le_refl _, rfl⟩, hclause⟩
      · -- After a default clause no later clause has the fallback label.
        refine ⟨.inr ⟨hnone, rfl⟩, fun hmem => ?_⟩
        obtain ⟨c, hc, heq⟩ := List.mem_map.1 hmem
        rcases hlabels c hc with ⟨k, hk, hlabel⟩ | ⟨hsome, -⟩
        · rw [hlabel] at heq
          cases heq
        · simp at hsome
      · exact ⟨.inl ⟨ordinal, Nat.le_refl _, rfl⟩, hclause⟩
    exact ⟨List.nodup_cons.2 ⟨hfirst.2, hnodup⟩, List.forall_mem_cons.2 ⟨hfirst.1, hlater⟩⟩

/-- The labels of clauses belong to the scope of the switch, and no break or continue goes to one of
    them. -/
theorem lowerClauses_own_labels {scope : LabelScope} {compared : Ty} {clauses : List Clause}
    {ordinal : Nat} {hasDefault : Bool} {cases : List Case}
    (h : lowerClauses fc scope compared ordinal hasDefault clauses st = .ok cases st') :
    ∀ c ∈ cases, c.label.scope = scope.id ∧ c.label.kind ≠ .exit ∧ c.label.kind ≠ .next := by
  intro c hc
  rcases (lowerClauses_labels h).2 c hc with ⟨k, -, hlabel⟩ | ⟨-, hlabel⟩
  · simp [hlabel, LabelScope.label]
  · simp [hlabel, LabelScope.label]

/-- Inside a switch, variables still have their locals. -/
theorem State.WellBound.switched (h : st.WellBound fc.settings.width) (d : Expr) :
    (st.switched fc d).WellBound fc.settings.width := by
  have hentered : (st.entered .switch).WellBound fc.settings.width := h
  exact (State.Advances.declared.wellBound ((State.Advances.noting _).wellBound hentered)).opened

end Weir.Lowering
