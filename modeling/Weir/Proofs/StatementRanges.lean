import Weir.Proofs.ControlShapes
import Weir.Proofs.Declarations
import Weir.Proofs.ExpressionRanges

/-!
# Ranges in lowered statements

A lowered statement respects the source types: what it gives a variable is in the range of the
variable, and what it returns in the range of the result. The types of the locals are those that the
source declares, and a statement is lowered where some of them are declared already.

## Key results

- `State.Records.agrees`: expressions in statements are compiled for the source types
- `lower_respects`, `lowerAll_respects`: lowered statements respect the source types
-/

namespace Weir.Lowering

open Weir.Code (Node Slot SourceTypes Value)
open Weir.Source (Clause Declarator Expr Span Stmt Ty)

variable {Γ : SourceTypes} {fc : FunctionContext}

/-! ## Contexts -/

/-- The source types have the result of the function, and the signature of each callable. -/
structure FunctionContext.Agrees (fc : FunctionContext) (Γ : SourceTypes) : Prop where
  result : Γ.result = fc.result
  callables : ∀ name s, fc.functions.find? name = some s →
    Γ.callee? s.id = some (s.params, s.result)

variable {st st' : State} {D : Declarations}

/-- What is in scope has its type among those of the locals. -/
private theorem Declarations.Consistent.agrees (hD : D.Consistent) (hfc : fc.Agrees Γ)
    (hlocals : D.types <+: Γ.locals) : (fc.visible D).Agrees Γ where
  bindings name v hfind := by
    have htype : D.types[v.index]? = some v.ty := hD.find? hfind
    obtain ⟨more, heq⟩ := hlocals
    rw [← heq, List.getElem?_append_left (List.getElem?_eq_some_iff.1 htype).1, htype]
  callables := hfc.callables

/-- Expressions in statements are compiled for the source types. -/
theorem State.Records.agrees (hst : st.Records fc.settings.width D) (hD : D.Consistent)
    (hfc : fc.Agrees Γ) (hlocals : D.types <+: Γ.locals) : (fc.context st).Agrees Γ := by
  rw [hst.context_eq]
  exact hD.agrees hfc hlocals

/-! ## Statements without statements in them -/

/-- The code in place of a poisoned return traps or does nothing. -/
private theorem poison_respects : (poison fc).Respects Γ := by
  unfold poison
  split
  · trivial
  · trivial

/-- A return delivers a value in the range of the result type, to which it is converted. -/
private theorem lower_return_respects (hfc : fc.Agrees Γ) (hctx : (fc.context st).Agrees Γ)
    {value : Option Expr} {span : Span} {n : Node}
    (h : lower fc (.returnStmt span value) st = .ok n st') : n.Respects Γ := by
  rcases lower_return h with ⟨e, -, -, rfl, -⟩ | ⟨-, -, rfl, -⟩ | ⟨rfl, -⟩
  · have hreturned : (compileReturned (fc.context st) e fc.result).value.Within Γ fc.result := by
      simp only [compileReturned, Reported.value_bind, convertImplicit_value]
      exact coerce_within (compile_within hctx e fc.result)
    refine ⟨hreturned.respects, ?_⟩
    rw [hfc.result]
    exact hreturned.contains
  · trivial
  · exact poison_respects

/-- The initial value of a variable is in the range of the type of the variable. -/
private theorem compileInitial_within {ctx : Context} (hctx : ctx.Agrees Γ) (d : Declarator)
    (declared : Option Ty) {n : Node}
    (h : (compileInitial ctx d declared).value.1 = some n) :
    n.Within Γ (compileInitial ctx d declared).value.2 := by
  obtain ⟨e, expected, hconverted | ⟨hcompiled, ht⟩⟩ := compileInitial_eq_some h
  · rw [hconverted]
    exact coerce_within (compile_within hctx e expected)
  · rw [hcompiled, ht]
    exact compile_within hctx e expected

/-- A declarator stores a value that its variable may hold. -/
private theorem lowerDeclarator_respects (hfc : fc.Agrees Γ) {isConst : Bool} {d : Declarator}
    {ns : List Node} (h : lowerDeclarator fc isConst d st = .ok ns st')
    (hst : st.Records fc.settings.width D) (hD : D.Consistent)
    (hlocals : (declarator fc isConst D d).types <+: Γ.locals) : ∀ n ∈ ns, n.Respects Γ := by
  have hctx := hst.agrees hD hfc ((declarator_extends isConst D d).isPrefix.trans hlocals)
  obtain ⟨rfl, -⟩ := lowerDeclarator_eq_ok h
  unfold declarator at hlocals
  rw [← hst.context_eq] at hlocals
  generalize hr : (compileInitial (fc.context st) d (declaredType? d)).value = r at *
  -- The type of the variable is that of the local after all those that there are.
  have hlocal : Γ.locals[st.locals.length]? = some r.2 := by
    obtain ⟨more, heq⟩ := hlocals
    rw [← heq, hst.length_eq]
    show ((D.types ++ [r.2]) ++ more)[D.types.length]? = some r.2
    simp
  intro n hn
  unfold initialNodes at hn
  split at hn
  next node hinitial =>
    obtain rfl := List.mem_singleton.1 hn
    have hnode := compileInitial_within hctx d (declaredType? d) (hr ▸ hinitial)
    rw [hr] at hnode
    exact ⟨hnode.respects, fun v hv => mayHold_of_contains hlocal (hnode.contains v hv)⟩
  next zero _ hzero =>
    obtain rfl := List.mem_singleton.1 hn
    -- Without an initial value the zero of its slot is stored, which every type contains.
    have hcontains : r.2.Contains zero := Ty.contains_zero hzero Ty.slot_of_bounds?
    refine ⟨trivial, fun v hv => ?_⟩
    cases hv
    exact mayHold_of_contains hlocal hcontains
  next => cases hn

/-- A list of declarators stores what the variables may hold. -/
private theorem lowerDeclarators_respects (hfc : fc.Agrees Γ) {isConst : Bool}
    {ds : List Declarator} {ns : List Node} (h : lowerDeclarators fc isConst ds st = .ok ns st')
    (hst : st.Records fc.settings.width D) (hD : D.Consistent)
    (hlocals : (ds.foldl (declarator fc isConst) D).types <+: Γ.locals) :
    ∀ n ∈ ns, n.Respects Γ := by
  -- The induction is on the declarators. What the later ones record is a prefix of the locals
  -- still, so the hypothesis serves all of them.
  induction ds generalizing st ns D with
  | nil =>
    obtain ⟨rfl, -⟩ := lowerDeclarators_nil h
    simp
  | cons d ds ih =>
    obtain ⟨first, st₁, rest, hfirst, hrest, rfl⟩ := lowerDeclarators_cons h
    have hextends := @declarator_extends fc isConst D d
    have hlater := @declarators_extends fc isConst ds (declarator fc isConst D d)
    have hfirst_respects : ∀ n ∈ first, n.Respects Γ :=
      lowerDeclarator_respects hfc hfirst hst hD (hlater.isPrefix.trans hlocals)
    have hrest_respects : ∀ n ∈ rest, n.Respects Γ :=
      ih hrest (lowerDeclarator_records hfirst hst) (hextends.consistent hD) hlocals
    exact fun n hn => (List.mem_append.1 hn).elim (hfirst_respects n) (hrest_respects n)

/-! ## Statements with statements in them -/

/-- Control around code that respects the types respects them, too. -/
private theorem compositional_respects : Compositional (Node.Respects Γ) where
  nop := trivial
  const _ := trivial
  br _ := trivial
  block _ _ h := Node.respects_block.2 h
  loop _ _ h := h
  ifThen _ _ _ hc ht := ⟨hc, ht⟩
  brIf _ _ h := h
  brTable _ _ _ h := h
  compare _ _ _ h := ⟨trivial, h⟩
  select _ _ _ hc he := ⟨hc, trivial, he⟩

/-- The discriminant is in the range of the type in which it is compared. -/
private theorem compileDiscriminant_within {ctx : Context} (hctx : ctx.Agrees Γ) (d : Expr) :
    let r := (compileDiscriminant ctx d).value
    r.1.Within Γ r.2 := by
  simp only [compileDiscriminant, Reported.value_bind, convertExplicit_value, Reported.value_pure]
  exact coerce_within (compile_within hctx d .void)

/-- The value of a clause respects the ranges. -/
private theorem compileGuard_respects {ctx : Context} (hctx : ctx.Agrees Γ) (compared : Ty)
    (e : Expr) : (compileGuard ctx compared e).value.Respects Γ := by
  simp only [compileGuard, Reported.value_bind, convertExplicit_value]
  exact (coerce_within (compile_within hctx e compared)).respects

mutual

/-- A lowered statement respects the source types, if the locals that are declared by its end are
    among those that these have. -/
theorem lower_respects (hfc : fc.Agrees Γ) : (s : Stmt) → ∀ {st st' : State} {n : Node}
    {D : Declarations}, lower fc s st = .ok n st' → st.Records fc.settings.width D →
    D.Consistent → (declarations fc s D).types <+: Γ.locals → n.Respects Γ
  | .exprStmt _ e, st, st', n, D, h, hst, hD, hlocals => by
    obtain ⟨rfl, -⟩ := lower_exprStmt h
    exact compileDiscarded_respects (hst.agrees hD hfc hlocals) e
  | .varDecl _ kind ds, st, st', n, D, h, hst, hD, hlocals => by
    obtain ⟨sets, hsets, rfl⟩ := lower_varDecl h
    exact compositional_respects.sequence (lowerDeclarators_respects hfc hsets hst hD hlocals)
  | .returnStmt _ value, st, st', n, D, h, hst, hD, hlocals =>
    lower_return_respects hfc (hst.agrees hD hfc hlocals) h
  | .ifStmt _ c t e, st, st', n, D, h, hst, hD, hlocals => by
    obtain ⟨tn, st₁, en, ht, he, rfl⟩ := lower_if h
    have hextends := @declarations_extends fc t D
    have hlocals₁ := (declarationsOption_extends e _).isPrefix.trans hlocals
    have htest : (compileCondition (fc.context st) c).value.Respects Γ :=
      compileCondition_respects (hst.agrees hD hfc (hextends.isPrefix.trans hlocals₁)) c
    have hthen : tn.Respects Γ := lower_respects hfc t ht (hst.noting _) hD hlocals₁
    have hst₁ := lower_records t ht (hst.noting _)
    have helse := lowerOption_respects hfc e he hst₁ (hextends.consistent hD) hlocals
    cases en with
    | none => exact ⟨htest, hthen⟩
    | some en => exact ⟨htest, hthen, helse en rfl⟩
  | .forStmt _ init c u body, st, st', n, D, h, hst, hD, hlocals => by
    -- Each part finds the declarations that the parts before it have recorded.
    obtain ⟨i, st₁, bn, st₂, hinit, hbody, -, rfl, -⟩ := lower_for h
    have hst₁ := lowerOption_records init hinit hst.opened
    have hst₂ := lowerOption_records body hbody (hst₁.entered .loop)
    have hD₁ := (@declarationsOption_extends fc init D.opened).consistent hD.opened
    have hbody_extends := @declarationsOption_extends fc body (declarationsOption fc init D.opened)
    -- The test and the update come after the body, where its locals are declared, too.
    have hctx := hst₂.agrees (hbody_extends.consistent hD₁) hfc hlocals
    have hinit_respects := lowerOption_respects hfc init hinit hst.opened hD.opened
      (hbody_extends.isPrefix.trans hlocals)
    have hbody_respects := compositional_respects.getD
      (lowerOption_respects hfc body hbody (hst₁.entered .loop) hD₁ hlocals)
    refine compositional_respects.forNode hinit_respects (fun n hn => ?_) (fun n hn => ?_)
      hbody_respects
    · cases c with
      | none => cases hn
      | some c => cases hn; exact compileCondition_respects hctx c
    · cases u with
      | none => cases hn
      | some u => cases hn; exact compileDiscarded_respects hctx u
  | .whileStmt _ c body, st, st', n, D, h, hst, hD, hlocals => by
    obtain ⟨bn, st₁, hbody, rfl, -⟩ := lower_while h
    have hst₁ := lowerOption_records body hbody (hst.entered .loop)
    have hctx := hst₁.agrees ((declarationsOption_extends body D).consistent hD) hfc hlocals
    have hbody_respects := compositional_respects.getD
      (lowerOption_respects hfc body hbody (hst.entered .loop) hD hlocals)
    exact compositional_respects.whileNode (compileCondition_respects hctx c) hbody_respects
  | .doWhile _ body c, st, st', n, D, h, hst, hD, hlocals => by
    obtain ⟨bn, st₁, hbody, rfl, -⟩ := lower_doWhile h
    have hst₁ := lower_records body hbody (hst.entered .loop)
    have hctx := hst₁.agrees ((declarations_extends body D).consistent hD) hfc hlocals
    exact compositional_respects.doWhileNode (compileCondition_respects hctx c)
      (lower_respects hfc body hbody (hst.entered .loop) hD hlocals)
  | .block _ ss, st, st', n, D, h, hst, hD, hlocals => by
    obtain ⟨nodes, st₁, hnodes, rfl, -⟩ := lower_block h
    exact Node.respects_block.2 (lowerAll_respects hfc ss hnodes hst.opened hD.opened hlocals)
  | .breakStmt _, st, st', n, D, h, hst, hD, hlocals => by
    obtain ⟨label, -, rfl, -⟩ := lower_break h
    trivial
  | .continueStmt _, st, st', n, D, h, hst, hD, hlocals => by
    obtain ⟨label, -, rfl, -⟩ := lower_continue h
    trivial
  | .switchStmt _ d [], st, st', n, D, h, hst, hD, hlocals => by
    obtain ⟨rfl, -⟩ := lower_switch_nil h
    exact compileDropped_respects (hst.agrees hD hfc hlocals) d .void
  | .switchStmt _ d (clause :: clauses), st, st', n, D, h, hst, hD, hlocals => by
    obtain ⟨cases, st₁, hclauses, hdispatch, -⟩ := lower_switch (by simp) h
    have hprefix := (declarationsClauses_extends (clause :: clauses) _).isPrefix.trans hlocals
    have hctx := hst.agrees hD hfc ((List.prefix_append D.types _).trans hprefix)
    -- The local of the discriminant comes before those that the clauses declare.
    have hlocal : Γ.locals[st.locals.length]? =
        some (compileDiscriminant (fc.context st) d).value.2 := by
      obtain ⟨more, heq⟩ := hprefix
      rw [← heq, hst.length_eq, hst.context_eq]
      show ((D.types ++ [_]) ++ more)[D.types.length]? = _
      simp
    have hcases := lowerClauses_respects hfc (clause :: clauses) hclauses (hst.switched d)
      (hD.reserve _).opened hlocals
    have hvalue := compileDiscriminant_within hctx d
    have hset : (Node.localSet st.locals.length _).Respects Γ :=
      ⟨hvalue.respects, fun v hv => mayHold_of_contains hlocal (hvalue.contains v hv)⟩
    exact compositional_respects.dispatchNode hset (fun c hc => (hcases c hc).1)
      (fun c hc => (hcases c hc).2) hdispatch
  | .empty _, st, st', n, D, h, hst, hD, hlocals => by
    obtain ⟨rfl, -⟩ := lower_empty h
    trivial
termination_by structural s => s

private theorem lowerOption_respects (hfc : fc.Agrees Γ) : (s : Option Stmt) → ∀ {st st' : State}
    {o : Option Node} {D : Declarations}, lowerOption fc s st = .ok o st' →
    st.Records fc.settings.width D → D.Consistent →
    (declarationsOption fc s D).types <+: Γ.locals → ∀ n ∈ o, n.Respects Γ
  | none, st, st', o, D, h, hst, hD, hlocals => by
    obtain ⟨rfl, -⟩ := lowerOption_none h
    simp
  | some s, st, st', o, D, h, hst, hD, hlocals => by
    obtain ⟨node, hnode, rfl⟩ := lowerOption_some h
    intro n hn
    cases hn
    exact lower_respects hfc s hnode hst hD hlocals
termination_by structural s => s

/-- The statements of a list respect the ranges, each with the declarations of those before it. -/
theorem lowerAll_respects (hfc : fc.Agrees Γ) : (ss : List Stmt) → ∀ {st st' : State}
    {ns : List Node} {D : Declarations}, lowerAll fc ss st = .ok ns st' →
    st.Records fc.settings.width D → D.Consistent →
    (declarationsAll fc ss D).types <+: Γ.locals → ∀ n ∈ ns, n.Respects Γ
  | [], st, st', ns, D, h, hst, hD, hlocals => by
    obtain ⟨rfl, -⟩ := lowerAll_nil h
    simp
  | s :: ss, st, st', ns, D, h, hst, hD, hlocals => by
    obtain ⟨node, st₁, nodes, hnode, hnodes, rfl⟩ := lowerAll_cons h
    have hextends := @declarations_extends fc s D
    refine List.forall_mem_cons.2 ⟨?_, ?_⟩
    · exact lower_respects hfc s hnode hst hD
        ((declarationsAll_extends ss _).isPrefix.trans hlocals)
    · exact lowerAll_respects hfc ss hnodes (lower_records s hnode hst) (hextends.consistent hD)
        hlocals
termination_by structural ss => ss

/-- The clauses of a switch respect the ranges, in their values and in their bodies. -/
private theorem lowerClauses_respects (hfc : fc.Agrees Γ) {scope : LabelScope} {compared : Ty} :
    (clauses : List Clause) → ∀ {ordinal : Nat} {hasDefault : Bool} {st st' : State}
    {cases : List Case} {D : Declarations},
    lowerClauses fc scope compared ordinal hasDefault clauses st = .ok cases st' →
    st.Records fc.settings.width D → D.Consistent →
    (declarationsClauses fc clauses D).types <+: Γ.locals → ∀ c ∈ cases,
    (∀ g ∈ c.guard, g.Respects Γ) ∧ ∀ n ∈ c.body, n.Respects Γ
  | [], ordinal, hasDefault, st, st', cases, D, h, hst, hD, hlocals => by
    obtain ⟨rfl, -⟩ := lowerClauses_nil h
    simp
  | .mk test body span :: clauses, ordinal, hasDefault, st, st', cases, D, h, hst, hD, hlocals => by
    obtain ⟨r, st₁, nodes, st₂, rest, htest, hbody, hrest, rfl⟩ := lowerClauses_cons h
    have hextends := @declarationsAll_extends fc body D
    have hlocals₂ := (declarationsClauses_extends clauses _).isPrefix.trans hlocals
    have hst₁ := lowerTest_records htest hst
    refine List.forall_mem_cons.2 ⟨⟨fun g hg => ?_, ?_⟩, ?_⟩
    -- The value of a clause is compiled before the body, with the declarations so far.
    · rcases lowerTest_eq_ok htest with ⟨e, -, rfl, -⟩ | ⟨-, -, rfl, -⟩ | ⟨-, -, rfl, -⟩
      · have hctx := hst.agrees hD hfc (hextends.isPrefix.trans hlocals₂)
        cases hg
        exact compileGuard_respects hctx compared e
      · cases hg
      · cases hg
    · exact lowerAll_respects hfc body hbody hst₁ hD hlocals₂
    · exact lowerClauses_respects hfc clauses hrest (lowerAll_records body hbody hst₁)
        (hextends.consistent hD) hlocals
termination_by structural clauses => clauses

end

end Weir.Lowering
