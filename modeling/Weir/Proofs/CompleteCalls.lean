import Weir.Proofs.CallResolution
import Weir.Proofs.EvaluationOrder

/-!
# Calls of programs without reports

Code that stands for a problem calls nothing, so lowered code may leave calls of its source out. In
a program without reports nothing is left out: the code of a function makes a call for every call in
its source. Calls are counted, because it is known already that those in the code are compiled from
calls of the source, in the same order.

## Key results

- `compile_hasCalls`, `lower_hasCalls`: an expression or a statement has as many calls as its code,
  or a problem is reported
- `lowerProgram_calls_of_quiet`: in a program without reports the calls in the code of a function
  are those in its source, one by one
-/

namespace Weir.Lowering

open Weir.Code (Node callsAll)
open Weir.Source (Call Clause Declarator Expr Literal PointerWidth Program Span Stmt Ty)
open Reported (unreported_pure unreported_report_bind)

/-- Where no call is left out, the calls in code are compiled from the source calls one by one. -/
private theorem Emits.forall₂ {w : PointerWidth} {functions : FunctionTable} {ns : List Node}
    {cs : List Call} (h : Emits w functions ns cs) (hlength : ns.length = cs.length) :
    List.Forall₂ (CompiledCall w functions) ns cs := by
  obtain ⟨kept, hkept, hsub⟩ := List.sublistForall₂_iff.1 h
  obtain rfl := hsub.eq_of_length (hkept.length_eq.symm.trans hlength)
  exact hkept

/-! ## Operands -/

/-- Whatever type is expected of an operand, its code has so many calls, or a problem is
    reported. -/
private def Operand.HasCalls (e : Operand) (count : Nat) : Prop :=
  ∀ expected, (e.compile expected).Unreported (·.node.calls.length = count)

section

variable {w : PointerWidth} {e left right : Operand} {i j : Nat} {expected : Ty} {span : Span}

/-- A condition converts what its operand is compiled to, which calls nothing. -/
private theorem Operand.HasCalls.condition (h : e.HasCalls i) :
    (e.condition w).Unreported (·.calls.length = i) := by
  refine (h .bool).bind fun c hc _ => ?_
  rw [convertExplicit_value, calls_coerce, hc]

/-- A strict operator has the calls of both of its operands. -/
private theorem compileStrict_hasCalls {op : Source.BinaryOp} (hl : left.HasCalls i)
    (hr : right.HasCalls j) :
    (compileStrict w op left right expected span).Unreported (·.node.calls.length = i + j) := by
  intro hquiet
  -- Each operand is compiled once for the code, whatever it was compiled for before.
  obtain ⟨hleft, hright, code, -, heq⟩ := compileStrict_quiet hquiet
  rw [heq]
  have hl := hl _ hleft.quiet
  have hr := hr _ hright.quiet
  unfold operatorNode
  split <;> simp [hl, hr]

/-- The code of a binary operator has the calls of both operands. -/
private theorem compileBinary_hasCalls {op : Source.BinaryOp} (hl : left.HasCalls i)
    (hr : right.HasCalls j) :
    (compileBinary w op left right expected span).Unreported (·.node.calls.length = i + j) := by
  have hlogical (isAnd : Bool) :
      (compileLogical w isAnd left right).Unreported (·.node.calls.length = i + j) := by
    refine hl.condition.bind fun l hl => hr.condition.bind fun r hr => unreported_pure ?_
    cases isAnd <;> simp [hl, hr]
  cases op with
  | and => exact hlogical true
  | or => exact hlogical false
  | _ => exact compileStrict_hasCalls hl hr

/-- The code of a unary operator has the calls of its operand. A literal under a minus sign, which
    is not compiled by itself, has none. -/
private theorem compileUnary_hasCalls {op : Source.UnaryOp} {literal? : Option Literal}
    (h : e.HasCalls i) (hliteral : ∀ literal ∈ literal?, i = 0) :
    (compileUnary w op e literal? expected span).Unreported (·.node.calls.length = i) := by
  have hconst (literal : Literal) : (compileLiteral w literal expected).node.calls.length = 0 := by
    rw [compileLiteral_node]
    rfl
  unfold compileUnary
  split
  · exact h expected
  · exact h.condition.bind fun test htest => unreported_pure htest
  · exact unreported_pure ((hconst _).trans (hliteral _ rfl).symm)
  · exact unreported_pure ((hconst _).trans (hliteral _ rfl).symm)
  · refine (h expected).bind fun c hc => ?_
    dsimp only
    split
    · exact unreported_pure hc
    split
    · refine unreported_pure ?_
      -- The zero in front is a constant.
      split <;> simp [hc]
    · exact poisoned_unreported
  · refine (h expected).bind fun c hc => ?_
    dsimp only
    split
    · refine unreported_pure ?_
      split <;> simp [hc]
    · exact poisoned_unreported

end

/-! ## Expressions -/

section

variable {ctx : Context}

/-- The code of an assignment has the calls of its value. -/
private theorem compileUpdate_hasCalls {op : Source.AssignOp} {target : Source.Ident}
    {value : Operand} {i : Nat} {span : Span} (hvalue : value.HasCalls i) :
    (compileUpdate ctx op target value span).Unreported
      fun update => ∃ v n, update = some (v, n) ∧ n.calls.length = i := by
  unfold compileUpdate
  cases ctx.bindings.find? target.name with
  | none => exact unreported_report_bind
  | some v =>
    dsimp only
    have hassign : ∀ c : Compiled, c.node.calls.length = i → (do
        let node ← convertImplicit ctx.width c.node c.ty v.ty value.span
        pure (some (v, node)) : Reported (Option (Variable × Node))).Unreported
        fun update => ∃ v n, update = some (v, n) ∧ n.calls.length = i := by
      refine fun c hc _ => ⟨v, _, rfl, ?_⟩
      rw [convertImplicit_value, calls_coerce, hc]
    split
    · exact unreported_report_bind
    · split
      · exact (hvalue v.ty).bind hassign
      · refine Reported.Unreported.bind (compileBinary_hasCalls (i := 0) (fun _ => ?_) hvalue)
          fun c hc => hassign c (hc.trans (Nat.zero_add i))
        -- Reading the variable calls nothing.
        exact unreported_pure rfl

/-- A literal calls nothing. -/
private theorem calls_of_literalOf? {e : Expr} {literal : Literal}
    (h : literal ∈ literalOf? e) : e.calls = [] := by
  cases e with
  | literal => rfl
  | _ => cases h

mutual

/-- The code of an expression has as many calls as the expression, or a problem is reported. The
    induction is on the expression. -/
theorem compile_hasCalls (ctx : Context) : (e : Expr) → (expected : Ty) →
    (compile ctx e expected).Unreported (·.node.calls.length = e.calls.length)
  | .literal _ value, expected => by
    simp only [compile, Expr.calls]
    refine unreported_pure ?_
    rw [compileLiteral_node]
    rfl
  | .paren _ inner, expected => by
    simp only [compile, Expr.calls]
    exact compile_hasCalls ctx inner expected
  | .name span name, expected => by
    simp only [compile, Expr.calls]
    split
    · exact unreported_pure rfl
    · exact poisoned_unreported
  -- A literal that takes up its sign has no calls to lose.
  | .unary span op operand, expected => by
    simp only [compile, Expr.calls]
    refine compileUnary_hasCalls (fun t => compile_hasCalls ctx operand t) fun literal h => ?_
    rw [calls_of_literalOf? h]
    rfl
  | .binary span op left right, expected => by
    simp only [compile, Expr.calls, List.length_append]
    exact compileBinary_hasCalls (fun t => compile_hasCalls ctx left t)
      fun t => compile_hasCalls ctx right t
  | .assign span op target value, expected => by
    simp only [compile, Expr.calls]
    refine (compileUpdate_hasCalls fun t => compile_hasCalls ctx value t).bind ?_
    rintro update ⟨v, n, rfl, hn⟩
    exact unreported_pure hn
  | .call span callee args, expected => by
    simp only [compile, Expr.calls]
    -- A call that is compiled calls something, with an argument for each parameter.
    split
    next => exact poisoned_unreported
    next s _ =>
      split
      next => exact poisoned_unreported
      next harity =>
        refine (compileArgs_hasCalls ctx args s.params (not_not.1 harity)).bind fun ns hns => ?_
        exact unreported_pure (congrArg Nat.succ hns)
  | .cast _ operand t, expected => by
    simp only [compile, Expr.calls]
    refine (compile_hasCalls ctx operand t).bind fun c hc => fun _ => ?_
    simp only [Reported.value_bind, Reported.value_pure, convertExplicit_value, calls_coerce, hc]
termination_by structural e => e

/-- The code of arguments, one for each parameter, has as many calls as the arguments. -/
private theorem compileArgs_hasCalls (ctx : Context) : (args : List Expr) → (params : List Ty) →
    params.length = args.length → (compileArgs ctx args params).Unreported
      fun ns => (callsAll ns).length = (Expr.callsAll args).length
  | [], _, _ => by
    simp only [compileArgs]
    exact unreported_pure rfl
  | _ :: _, [], h => by cases h
  | arg :: args, t :: ts, h => by
    simp only [compileArgs]
    refine (compile_hasCalls ctx arg t).bind fun c hc => ?_
    have hconverted : (convertImplicit ctx.width c.node c.ty t arg.span).Unreported
        (·.calls.length = arg.calls.length) := by
      intro _
      rw [convertImplicit_value, calls_coerce, hc]
    refine hconverted.bind fun n hn => ?_
    have hrest := compileArgs_hasCalls ctx args ts (Nat.succ.inj h)
    refine hrest.bind fun ns hns => unreported_pure ?_
    simp [Expr.callsAll, hn, hns]
termination_by structural args => args

end

variable (ctx)

private theorem compileCondition_hasCalls (e : Expr) :
    (compileCondition ctx e).Unreported (·.calls.length = e.calls.length) :=
  Operand.HasCalls.condition fun t => compile_hasCalls ctx e t

/-- An expression whose value is dropped has all of its calls. -/
private theorem compileDropped_hasCalls (e : Expr) :
    (compileDropped ctx e).Unreported (·.calls.length = e.calls.length) := by
  refine (compile_hasCalls ctx e .void).bind fun c hc => unreported_pure ?_
  split
  · exact hc
  · exact hc

/-- An expression for its effects has all of its calls. -/
private theorem compileDiscarded_hasCalls : (e : Expr) →
    (compileDiscarded ctx e).Unreported (·.calls.length = e.calls.length)
  | .paren _ inner => by
    simp only [compileDiscarded, Expr.calls]
    exact compileDiscarded_hasCalls inner
  | .assign span op target value => by
    simp only [compileDiscarded, Expr.calls]
    refine (compileUpdate_hasCalls fun t => compile_hasCalls ctx value t).bind ?_
    rintro update ⟨v, n, rfl, hn⟩
    exact unreported_pure hn
  | .literal .. | .name .. | .unary .. | .binary .. | .call .. | .cast .. => by
    simp only [compileDiscarded]
    exact compileDropped_hasCalls ctx _

private theorem compileReturned_hasCalls (e : Expr) (result : Ty) :
    (compileReturned ctx e result).Unreported (·.calls.length = e.calls.length) := by
  refine (compile_hasCalls ctx e result).bind fun c hc _ => ?_
  rw [convertImplicit_value, calls_coerce, hc]

private theorem compileDiscriminant_hasCalls (e : Expr) :
    (compileDiscriminant ctx e).Unreported (·.1.calls.length = e.calls.length) := by
  refine (compile_hasCalls ctx e .void).bind fun c hc _ => ?_
  simp only [Reported.value_bind, Reported.value_pure, convertExplicit_value, calls_coerce, hc]

private theorem compileGuard_hasCalls (compared : Ty) (e : Expr) :
    (compileGuard ctx compared e).Unreported (·.calls.length = e.calls.length) := by
  refine (compile_hasCalls ctx e compared).bind fun c hc _ => ?_
  rw [convertExplicit_value, calls_coerce, hc]

/-- An expression that may be missing calls nothing where it is. -/
private theorem hasCalls_of_mapM {compiled : Expr → Reported Node}
    (h : ∀ e, (compiled e).Unreported (·.calls.length = e.calls.length)) (o : Option Expr) :
    (o.mapM compiled).Unreported
      fun o' => (callsAll o'.toList).length = (Expr.callsOption o).length := by
  cases o with
  | none => exact unreported_pure rfl
  | some e =>
    refine (h e).bind fun n hn => unreported_pure ?_
    simpa [Expr.callsOption] using hn

/-- An initial value has all of its calls, and there are none without one. -/
private theorem compileInitial_hasCalls (d : Declarator) (declared : Option Ty) :
    (compileInitial ctx d declared).Unreported
      fun r => (callsAll r.1.toList).length = (Expr.callsOption d.init).length := by
  unfold compileInitial
  split
  next e t hinit =>
    refine (compile_hasCalls ctx e t).bind fun c hc _ => ?_
    simpa [Expr.callsOption, hinit, convertImplicit_value] using hc
  next e hinit =>
    refine (compile_hasCalls ctx e .void).bind fun c hc => ?_
    split
    · intro _
      simpa [Expr.callsOption, hinit, convertExplicit_value] using hc
    · exact unreported_pure (by simpa [Expr.callsOption, hinit] using hc)
  next hinit => exact unreported_pure (by simp [Expr.callsOption, hinit])
  next => exact unreported_report_bind

end

/-! ## Statements -/

section

variable {fc : FunctionContext}

/-- A declarator has the calls of its initial value. -/
private theorem lowerDeclarator_hasCalls {isConst : Bool} {d : Declarator} {st st' : State}
    {ns : List Node} (h : lowerDeclarator fc isConst d st = .ok ns st')
    (hquiet : st'.reports = st.reports) :
    (callsAll ns).length = (Expr.callsOption d.init).length := by
  have hinitial := compileInitial_hasCalls (fc.context st) d (declaredType? d)
    (compileInitial_reports h hquiet)
  obtain ⟨rfl, -⟩ := lowerDeclarator_eq_ok h
  rw [← hinitial]
  unfold initialNodes
  -- Without an initial value the variable is set to a constant.
  split
  next node _ hnode => simp [hnode]
  next hnode _ => simp [hnode]
  next hnode _ => simp [hnode]

/-- The declarators of a declaration have the calls of their initial values. -/
private theorem lowerDeclarators_hasCalls {isConst : Bool} {ds : List Declarator}
    {st st' : State} {ns : List Node} (h : lowerDeclarators fc isConst ds st = .ok ns st')
    (hquiet : st'.reports = st.reports) :
    (callsAll ns).length = (Declarator.callsAll ds).length := by
  induction ds generalizing st ns with
  | nil =>
    obtain ⟨rfl, -⟩ := lowerDeclarators_nil h
    rfl
  | cons d ds ih =>
    obtain ⟨first, st₁, rest, hfirst, hreports, hrest, hrestReports, rfl⟩ :=
      lowerDeclarators_cons_quiet h hquiet
    have hboth := congrArg₂ (· + ·) (lowerDeclarator_hasCalls hfirst hreports)
      (ih hrest hrestReports)
    simpa [Declarator.callsAll] using hboth

mutual

/-- The code of a statement has as many calls as the statement, or a problem is reported. The
    induction is on the statement. -/
theorem lower_hasCalls : (s : Stmt) → ∀ {st st' : State} {n : Node}, lower fc s st = .ok n st' →
    st'.reports = st.reports → n.calls.length = s.calls.length
  | .exprStmt _ e, st, st', n, h, hquiet => by
    obtain ⟨hreports, rfl, -⟩ := lower_exprStmt_quiet h hquiet
    exact compileDiscarded_hasCalls _ e hreports
  | .varDecl _ kind ds, st, st', n, h, hquiet => by
    obtain ⟨sets, hsets, rfl⟩ := lower_varDecl h
    rw [calls_sequence]
    exact lowerDeclarators_hasCalls hsets hquiet
  | .returnStmt _ value?, st, st', n, h, hquiet => by
    rcases lower_return_quiet h hquiet with ⟨e, rfl, -, hreports, rfl, -⟩ | ⟨rfl, -, rfl, -⟩
    · simpa [Stmt.calls, Expr.callsOption] using compileReturned_hasCalls _ e fc.result hreports
    · rfl
  | .ifStmt _ c t e, st, st', n, h, hquiet => by
    obtain ⟨htest, tn, st₁, en, ht, hthen, he, helse, rfl⟩ := lower_if_quiet h hquiet
    have hc := compileCondition_hasCalls _ c htest
    have ht := lower_hasCalls t ht hthen
    have he := lowerOption_hasCalls e he helse
    cases en with
    | none => simp [Stmt.calls, hc, ht, ← he]
    | some en => simp [Stmt.calls, hc, ht, ← he]
  | .forStmt _ init c u body, st, st', n, h, hquiet => by
    obtain ⟨i, st₁, bn, st₂, hinit, hinitReports, hbody, hbodyReports, -, hc, hu, rfl, -⟩ :=
      lower_for_quiet h hquiet
    have hinit := lowerOption_hasCalls init hinit hinitReports
    have hbody := lowerOption_hasCalls body hbody hbodyReports
    have hc := hasCalls_of_mapM (compileCondition_hasCalls (fc.context st₂)) c hc
    have hu := hasCalls_of_mapM (compileDiscarded_hasCalls (fc.context st₂)) u hu
    simp [Stmt.calls, hinit, hbody, hc, hu]
  | .whileStmt _ c body, st, st', n, h, hquiet => by
    obtain ⟨bn, st₁, hbody, hreports, htest, rfl, -⟩ := lower_while_quiet h hquiet
    have hc := compileCondition_hasCalls _ c htest
    have hbody := lowerOption_hasCalls body hbody hreports
    simp [Stmt.calls, hc, hbody]
  | .doWhile _ body c, st, st', n, h, hquiet => by
    obtain ⟨bn, st₁, hbody, hreports, htest, rfl, -⟩ := lower_doWhile_quiet h hquiet
    have hc := compileCondition_hasCalls _ c htest
    have hbody := lower_hasCalls body hbody hreports
    simp [Stmt.calls, hc, hbody]
  | .block _ ss, st, st', n, h, hquiet => by
    obtain ⟨nodes, st₁, hnodes, rfl, rfl⟩ := lower_block h
    exact lowerAll_hasCalls ss hnodes hquiet
  | .breakStmt _, st, st', n, h, hquiet => by
    obtain ⟨label, -, rfl, -⟩ := lower_break h
    rfl
  | .continueStmt _, st, st', n, h, hquiet => by
    obtain ⟨label, -, rfl, -⟩ := lower_continue h
    rfl
  | .switchStmt _ d [], st, st', n, h, hquiet => by
    obtain ⟨hreports, rfl, -⟩ := lower_switch_nil_quiet h hquiet
    simpa [Stmt.calls, Clause.testCalls, Clause.bodyCalls] using
      compileDropped_hasCalls _ d hreports
  | .switchStmt _ d (clause :: clauses), st, st', n, h, hquiet => by
    obtain ⟨hd, cases, st₁, hclauses, hreports, hdispatch, -⟩ :=
      lower_switch_quiet (by simp) h hquiet
    have hvalue := compileDiscriminant_hasCalls _ d hd
    obtain ⟨hguards, hbodies⟩ := lowerClauses_hasCalls (clause :: clauses) hclauses hreports
    rw [calls_dispatchNode hdispatch]
    simp only [Stmt.calls, List.length_append, hvalue, hguards, hbodies]
  | .empty _, st, st', n, h, hquiet => by
    obtain ⟨rfl, -⟩ := lower_empty h
    rfl
termination_by structural s => s

private theorem lowerOption_hasCalls : (s : Option Stmt) → ∀ {st st' : State} {o : Option Node},
    lowerOption fc s st = .ok o st' → st'.reports = st.reports →
    (callsAll o.toList).length = (Stmt.callsOption s).length
  | none, st, st', o, h, hquiet => by
    obtain ⟨rfl, -⟩ := lowerOption_none h
    rfl
  | some s, st, st', o, h, hquiet => by
    obtain ⟨node, hnode, rfl⟩ := lowerOption_some h
    simpa [Stmt.callsOption] using lower_hasCalls s hnode hquiet
termination_by structural s => s

private theorem lowerAll_hasCalls : (ss : List Stmt) → ∀ {st st' : State} {ns : List Node},
    lowerAll fc ss st = .ok ns st' → st'.reports = st.reports →
    (callsAll ns).length = (Stmt.callsAll ss).length
  | [], st, st', ns, h, hquiet => by
    obtain ⟨rfl, -⟩ := lowerAll_nil h
    rfl
  | s :: ss, st, st', ns, h, hquiet => by
    obtain ⟨node, st₁, nodes, hnode, hreports, hnodes, hrest, rfl⟩ := lowerAll_cons_quiet h hquiet
    simp [Stmt.callsAll, lower_hasCalls s hnode hreports, lowerAll_hasCalls ss hnodes hrest]
termination_by structural ss => ss

/-- The guards of clauses have as many calls as their tests, and their bodies as many as their
    statements. -/
private theorem lowerClauses_hasCalls {scope : LabelScope} {compared : Ty} :
    (clauses : List Clause) → ∀ {ordinal : Nat} {hasDefault : Bool} {st st' : State}
    {cases : List Case},
    lowerClauses fc scope compared ordinal hasDefault clauses st = .ok cases st' →
    st'.reports = st.reports →
    (callsAll ((guardedCases cases).map (·.2))).length = (Clause.testCalls clauses).length ∧
      (cases.flatMap fun c => callsAll c.body).length = (Clause.bodyCalls clauses).length
  | [], ordinal, hasDefault, st, st', cases, h, hquiet => by
    obtain ⟨rfl, -⟩ := lowerClauses_nil h
    exact ⟨rfl, rfl⟩
  | .mk test body span :: clauses, ordinal, hasDefault, st, st', cases, h, hquiet => by
    obtain ⟨htest, label, nodes, st₁, rest, hbody, hbodyReports, hrest, hrestReports, rfl⟩ :=
      lowerClauses_cons_quiet h hquiet
    have hbody := lowerAll_hasCalls body hbody hbodyReports
    obtain ⟨hguards, hbodies⟩ := lowerClauses_hasCalls clauses hrest hrestReports
    -- The values of the clauses go to the selection, and the bodies to the blocks.
    constructor
    · cases test with
      | none => simpa [guardedCases, Clause.testCalls, Expr.callsOption] using hguards
      | some e =>
        have hguard := compileGuard_hasCalls _ compared e (htest e rfl)
        simpa [guardedCases, Clause.testCalls, Expr.callsOption, hguard] using hguards
    · simp [Clause.bodyCalls, hbody, hbodies]
termination_by structural clauses => clauses

end

end

/-! ## Programs -/

/-- In a program without reports no call is left out: the calls in the code of a function are those
    in its source, one by one and in the same order, each of the first callable of its name. -/
theorem lowerProgram_calls_of_quiet {settings : Settings} {p : Program} {r : Lowered}
    (h : lowerProgram settings p = .ok r) (hquiet : r.reports = []) {k : Nat}
    {f : Source.Function} (hf : p.functions[k]? = some f) :
    ∃ g, r.module.functions[k]? = some g ∧
      List.Forall₂ (ResolvesCall settings p r.module) g.body.calls
        (Source.Stmt.callsAll f.body) := by
  obtain ⟨g, hg, hlowered⟩ := lowerProgram_getElem?_quiet h hquiet hf
  obtain ⟨u, st, nodes, st', -, hnodes, hreports, rfl⟩ := lowerFunction_quiet hlowered
  refine ⟨_, hg, ?_⟩
  dsimp only
  rw [calls_bodyNode]
  have hall := (lowerAll_emits f.body hnodes).forall₂ (lowerAll_hasCalls f.body hnodes hreports)
  exact hall.imp fun n c hcall => resolvesCall_of_compiledCall h hcall

end Weir.Lowering
