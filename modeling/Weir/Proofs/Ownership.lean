import Weir.Proofs.Allotment
import Weir.Proofs.Declarations

/-!
# Ownership of locals

In a program without reports every parameter, every declarator and every condition of a switch has
a local to itself. A constant is written by its declaration only, and the condition of a switch only
by the node that keeps it, at the beginning of the innermost block of the switch; it is read only
where the switch is dispatched.

## Key results

- `lower_allots`, `lowerAll_allots`: statements whose lowering reports nothing
- `lowerFunction_allots`: functions
- `lowerProgram_owners`: programs without reports
-/

namespace Weir.Lowering

open Weir.Code (Local Node Slot subnodesAll)
open Weir.Source (Clause Declarator PointerWidth Program Stmt Ty)

variable {fc : FunctionContext} {st st' : State}

/-! ## Declarations -/

/-- A variable that has a type other than `void` is given an initial value, which accesses what its
    initial expression does. -/
private theorem initialNodes_eq {scopes : Variables} {own : Nat → Prop} (index : Nat)
    {initial : Option Node} {slot : Slot} (hslot : slot ≠ .none)
    (h : ∀ n ∈ initial, Node.Confined scopes own n) :
    ∃ value, initialNodes index initial slot = [.localSet index value] ∧
      Node.Confined scopes own value := by
  unfold initialNodes
  cases initial with
  | some value => exact ⟨value, rfl, h value rfl⟩
  | none =>
    cases slot with
    | none => exact absurd rfl hslot
    | i32 | i64 | f32 | f64 => exact ⟨_, rfl, .const⟩

/-- A declarator is allotted the next local. -/
private theorem lowerDeclarator_allots {isConst : Bool} {d : Declarator} {ns : List Node}
    (h : lowerDeclarator fc isConst d st = .ok ns st') (hquiet : st'.reports = st.reports)
    (hst : st.WellBound fc.settings.width) :
    Allots st st' [⟨st.locals.length, d.ident.name, .declarator isConst ns⟩]
      (subnodesAll ns) := by
  -- The initial value is compiled before the variable is in scope.
  have hinitial := compileInitial_confined (fc.context st) (Between st st) d (declaredType? d)
    (compileInitial_reports h hquiet)
  have hslot := Ty.slot_ne_none (w := fc.settings.width)
    (compileInitial_isVoid (fc.context st) d)
  obtain ⟨hns, reports, rfl⟩ := lowerDeclarator_eq_ok h
  obtain ⟨value, heq, hvalue⟩ := initialNodes_eq st.locals.length hslot hinitial
  rw [heq] at hns
  subst hns
  exact .declare hst hvalue rfl

/-- Every declarator of a declaration is given the next local, whose writes are its own. -/
private theorem lowerDeclarators_allots {isConst : Bool} {ds : List Declarator} {ns : List Node}
    (h : lowerDeclarators fc isConst ds st = .ok ns st') (hquiet : st'.reports = st.reports)
    (hst : st.WellBound fc.settings.width) :
    Allots st st' (declaratorOwners fc isConst ds st) (subnodesAll ns) := by
  -- The second part starts with the locals of the first, all still bound to their slots.
  induction ds generalizing st ns with
  | nil =>
    obtain ⟨rfl, rfl⟩ := lowerDeclarators_nil h
    exact .code fun m hm => by cases hm
  | cons d ds ih =>
    obtain ⟨first, st₁, rest, hfirst, hreports, hrest, hrestReports, rfl⟩ :=
      lowerDeclarators_cons_quiet h hquiet
    have hfirstAllots := lowerDeclarator_allots hfirst hreports hst
    have hrestAllots := ih hrest hrestReports ((lowerDeclarator_advances hfirst).wellBound hst)
    have hboth := hfirstAllots.append hrestAllots hst
    rw [Code.subnodesAll_append, declaratorOwners, Lower.resultD_of_ok hfirst,
      Lower.after_of_ok hfirst]
    exact hboth

/-! ## Statements -/

/-- Code for an expression that may be missing. -/
private theorem toList_confined {scopes : Variables} {own : Nat → Prop} {o : Option Node}
    (h : ∀ n ∈ o, Node.Confined scopes own n) :
    ∀ m ∈ subnodesAll o.toList, MayAccess scopes own m :=
  Node.Confined.all_iff.2 fun n hn => h n (Option.mem_toList.1 hn)

mutual

/-- A statement has its owners allotted their locals, or a problem is reported. -/
theorem lower_allots : (s : Stmt) → ∀ {st st' : State} {n : Node},
    lower fc s st = .ok n st' → st'.reports = st.reports → st.WellBound fc.settings.width →
    Allots st st' (owners fc s st) n.subnodes
  | .exprStmt _ e, st, st', n, h, hquiet, hst => by
    obtain ⟨hreports, rfl, rfl⟩ := lower_exprStmt_quiet h hquiet
    exact .code (compileDiscarded_confined _ _ e hreports)
  | .varDecl _ kind ds, st, st', n, h, hquiet, hst => by
    obtain ⟨sets, hsets, rfl⟩ := lower_varDecl h
    exact (lowerDeclarators_allots hsets hquiet hst).wrap wraps_sequence
  | .returnStmt _ value?, st, st', n, h, hquiet, hst => by
    rcases lower_return_quiet h hquiet with ⟨e, -, -, hreports, rfl, rfl⟩ | ⟨-, -, rfl, rfl⟩
    · exact .code (Node.Confined.retValue.2 (compileReturned_confined _ _ e fc.result hreports))
    · exact .code Node.Confined.ret
  | .ifStmt _ c t e, st, st', n, h, hquiet, hst => by
    obtain ⟨htest, tn, st₁, en, ht, hthen, he, helse, rfl⟩ := lower_if_quiet h hquiet
    have hc := compileCondition_confined (fc.context st) (Between st st) c htest
    have htAllots := lower_allots t ht hthen hst
    have heAllots := lowerOption_allots e he helse ((lower_advances t ht).wellBound hst)
    have hall := (Allots.code hc).append (htAllots.append heAllots hst) hst
    rw [owners, Lower.after_of_ok ht]
    cases en with
    | none =>
      rw [Option.toList_none, subnodesAll, List.append_nil] at hall
      exact hall.wrap wraps_ifThen
    | some en =>
      rw [Option.toList_some, subnodesAll, subnodesAll, List.append_nil] at hall
      exact hall.wrap wraps_ifElse
  | .forStmt _ init c u body, st, st', n, h, hquiet, hst => by
    obtain ⟨i, st₁, bn, st₂, hinit, hreports, hbody, hbodyReports, -, hc, hu, rfl, rfl⟩ :=
      lower_for_quiet h hquiet
    have hst₁ := (lowerOption_advances init hinit).wellBound hst.opened
    have hcCode := toList_confined (confined_of_mapM _ (Between st₂ st₂)
      (compileCondition_confined (fc.context st₂) _) c hc)
    have huCode := toList_confined (confined_of_mapM _ (Between st₂ st₂)
      (compileDiscarded_confined (fc.context st₂) _) u hu)
    have hbodyAllots := (lowerOption_allots body hbody hbodyReports hst₁).wrap wraps_getD
    -- The test stands before the body, but sees what the body declares.
    have hloop := (hbodyAllots.weave_code huCode hst₁ (.append _ _)).weave_code hcCode hst₁
      (Weaves.append _ _).symm
    have hall := (lowerOption_allots init hinit hreports hst.opened).append hloop.left hst.opened
    rw [owners, Lower.after_of_ok hinit]
    exact hall.closed.wrap wraps_forNode
  | .whileStmt _ c body, st, st', n, h, hquiet, hst => by
    obtain ⟨bn, st₁, hbody, hreports, htest, rfl, rfl⟩ := lower_while_quiet h hquiet
    have hc := compileCondition_confined (fc.context st₁) (Between st₁ st₁) c htest
    have hbodyAllots := (lowerOption_allots body hbody hreports hst).wrap wraps_getD
    -- The test stands before the body, but sees what the body declares.
    have hall := hbodyAllots.weave_code hc hst (Weaves.append _ _).symm
    exact hall.left.wrap wraps_whileNode
  | .doWhile _ body c, st, st', n, h, hquiet, hst => by
    obtain ⟨bn, st₁, hbody, hreports, htest, rfl, rfl⟩ := lower_doWhile_quiet h hquiet
    have hc := compileCondition_confined (fc.context st₁) (Between st₁ st₁) c htest
    have hall := (lower_allots body hbody hreports hst).weave_code hc hst (.append _ _)
    exact hall.left.wrap wraps_doWhileNode
  | .block _ ss, st, st', n, h, hquiet, hst => by
    obtain ⟨nodes, st₁, hnodes, rfl, rfl⟩ := lower_block h
    exact (lowerAll_allots ss hnodes hquiet hst.opened).closed.wrap wraps_block
  | .breakStmt _, st, st', n, h, hquiet, hst => by
    obtain ⟨label, -, rfl, rfl⟩ := lower_break h
    exact .code Node.Confined.br
  | .continueStmt _, st, st', n, h, hquiet, hst => by
    obtain ⟨label, -, rfl, rfl⟩ := lower_continue h
    exact .code Node.Confined.br
  | .switchStmt _ d [], st, st', n, h, hquiet, hst => by
    obtain ⟨hreports, rfl, rfl⟩ := lower_switch_nil_quiet h hquiet
    exact .code (compileDropped_confined _ _ d hreports)
  | .switchStmt _ d (clause :: clauses), st, st', n, h, hquiet, hst => by
    obtain ⟨hd, cases, st₁, hclauses, hreports, hdispatch, rfl⟩ :=
      lower_switch_quiet (by simp) h hquiet
    have hvalue := compileDiscriminant_confined (fc.context st) (Between st st) d hd
    have hcases := lowerClauses_allots (clause :: clauses) hclauses hreports (hst.switched d)
    have hclosed := hcases.closed
    -- The clauses start after the local of the condition, with the scopes of the switch open.
    have hall : Allots (st.declared ("condition$" ++ toString st.labels.next) _) st₁.closed.left
        (ownersClauses fc (clause :: clauses) (st.switched fc d)) (clauseNodes cases) :=
      ⟨hclosed.names, hclosed.indices, hclosed.bindings, hclosed.confined, hclosed.owns⟩
    rw [owners, Lower.resultD_of_ok h]
    · exact hall.dispatch hst hvalue hdispatch
    · simp
  | .empty _, st, st', n, h, hquiet, hst => by
    obtain ⟨rfl, rfl⟩ := lower_empty h
    exact .code Node.Confined.nop
termination_by structural s => s

private theorem lowerOption_allots : (s : Option Stmt) → ∀ {st st' : State} {o : Option Node},
    lowerOption fc s st = .ok o st' → st'.reports = st.reports →
    st.WellBound fc.settings.width →
    Allots st st' (ownersOption fc s st) (subnodesAll o.toList)
  | none, st, st', o, h, hquiet, hst => by
    obtain ⟨rfl, rfl⟩ := lowerOption_none h
    exact .code fun m hm => by cases hm
  | some s, st, st', o, h, hquiet, hst => by
    obtain ⟨node, hnode, rfl⟩ := lowerOption_some h
    have hall := lower_allots s hnode hquiet hst
    rw [Option.toList_some, subnodesAll, subnodesAll, List.append_nil]
    exact hall
termination_by structural s => s

/-- The locals of a list are those of its statements, in the order of the text. -/
theorem lowerAll_allots : (ss : List Stmt) → ∀ {st st' : State} {ns : List Node},
    lowerAll fc ss st = .ok ns st' → st'.reports = st.reports → st.WellBound fc.settings.width →
    Allots st st' (ownersAll fc ss st) (subnodesAll ns)
  | [], st, st', ns, h, hquiet, hst => by
    obtain ⟨rfl, rfl⟩ := lowerAll_nil h
    exact .code fun m hm => by cases hm
  | s :: ss, st, st', ns, h, hquiet, hst => by
    obtain ⟨node, st₁, nodes, hnode, hreports, hnodes, hrestReports, rfl⟩ :=
      lowerAll_cons_quiet h hquiet
    have hfirst := lower_allots s hnode hreports hst
    have hrest := lowerAll_allots ss hnodes hrestReports ((lower_advances s hnode).wellBound hst)
    rw [ownersAll, Lower.after_of_ok hnode]
    exact hfirst.append hrest hst
termination_by structural ss => ss

/-- The locals of the clauses follow each other, and their guards access what is in scope before any
    of their bodies. -/
private theorem lowerClauses_allots {scope : LabelScope} {compared : Ty} : (clauses : List Clause) →
    ∀ {ordinal : Nat} {hasDefault : Bool} {st st' : State} {cases : List Case},
    lowerClauses fc scope compared ordinal hasDefault clauses st = .ok cases st' →
    st'.reports = st.reports → st.WellBound fc.settings.width →
    Allots st st' (ownersClauses fc clauses st) (clauseNodes cases)
  | [], ordinal, hasDefault, st, st', cases, h, hquiet, hst => by
    obtain ⟨rfl, rfl⟩ := lowerClauses_nil h
    exact .code fun m hm => by cases hm
  | .mk test body span :: clauses, ordinal, hasDefault, st, st', cases, h, hquiet, hst => by
    obtain ⟨htest, label, nodes, st₁, rest, hbody, hbodyReports, hrest, hrestReports, rfl⟩ :=
      lowerClauses_cons_quiet h hquiet
    -- The guard is compiled where the clause begins, so it sees the variables in scope there.
    have hguard : ∀ m ∈ subnodesAll (test.map fun e =>
        (compileGuard (fc.context st) compared e).value).toList,
        MayAccess st.bindings (Between st st) m := by
      refine toList_confined fun n hn => ?_
      obtain ⟨e, he, rfl⟩ := Option.map_eq_some_iff.1 hn
      exact compileGuard_confined _ _ compared e (htest e he)
    have hbodyAllots := lowerAll_allots body hbody hbodyReports hst
    have hrestAllots := lowerClauses_allots clauses hrest hrestReports
      ((lowerAll_advances body hbody).wellBound hst)
    -- The nodes of a clause are its guard and its body, woven into those of the other clauses.
    have hclause := (Allots.code hguard).append hbodyAllots hst
    rw [ownersClauses, Lower.after_of_ok hbody]
    exact hclause.weave hrestAllots hst weaves_clauseNodes
termination_by structural clauses => clauses

end

/-! ## Functions -/

/-- The parameters are allotted the first locals. -/
private theorem parameters_allots {w : PointerWidth} {ps : List Source.Param}
    (hlocals : st.locals = ps.map fun p => ⟨p.name, p.ty.slot w⟩) (hst : st.WellBound w) :
    Allots {} st (ps.mapIdx fun i p => ⟨i, p.name, .parameter⟩) [] where
  names := by
    rw [hlocals]
    refine List.ext_getElem (by simp) fun i _ _ => ?_
    simp
  indices := by
    refine List.ext_getElem (by simp) fun i _ _ => ?_
    simp
  -- Every variable in scope is a parameter.
  bindings v hv := by
    have hlt := hst.index_lt hv
    rw [hlocals, List.length_map] at hlt
    exact .inr ⟨_, List.mem_mapIdx.2 ⟨v.index, hlt, rfl⟩, rfl, trivial⟩
  confined m hm := by cases hm
  owns o ho := by
    obtain ⟨i, hi, rfl⟩ := List.mem_mapIdx.1 ho
    trivial

/-- A trap at the end of a function accesses nothing. -/
private theorem wraps_bodyNode {result : Ty} {nodes : List Node} :
    Wraps (bodyNode result nodes).subnodes (subnodesAll nodes) := by
  rcases bodyNode_cases result nodes with ⟨hbody, -⟩ | ⟨-, hbody⟩
  · rw [hbody]
    exact wraps_block
  · rw [hbody]
    refine wraps_block.trans ⟨fun n hn => ?_, ?_⟩
    · rw [Code.subnodesAll_append]
      exact .inl (List.mem_append_left _ hn)
    · simp

/-- A function has its owners allotted all of its locals. -/
theorem lowerFunction_allots {settings : Settings} {functions : FunctionTable}
    {f : Source.Function} {g : Code.Function}
    (h : lowerFunction settings functions f = .ok (g, [])) :
    ∃ st, st.locals = g.params ++ g.locals ∧
      Allots {} st (functionOwners settings functions f) g.body.subnodes := by
  obtain ⟨u, st, nodes, st', hparams, hnodes, hreports, rfl⟩ := lowerFunction_quiet h
  obtain ⟨-, hlocals, hst⟩ := bindParams_eq_ok (w := settings.width) hparams
    (by simp [State.WellBound]) (by simp)
  have hempty : State.WellBound settings.width {} := by simp [State.WellBound]
  have hbody := lowerAll_allots f.body hnodes hreports hst
  have hall := (parameters_allots hlocals hst).append hbody hempty
  refine ⟨st', ?_, ?_⟩
  · obtain ⟨more, hmore⟩ := (lowerAll_advances f.body hnodes).locals
    rw [← hmore, hlocals, List.drop_left]
  · rw [functionOwners, Lower.after_of_ok hparams]
    exact hall.wrap wraps_bodyNode

/-! ## Programs -/

/-- Where nothing is reported in a program, the parameters, the declarators and the conditions of
    switches in a function have its locals, one each: they are numbered in order from zero on, so no
    two of them share a local. What each of them owns is accessed nowhere else in the body of the
    function. -/
theorem lowerProgram_owners {settings : Settings} {p : Program} {r : Lowered}
    (h : lowerProgram settings p = .ok r) (hquiet : r.reports = []) {k : Nat}
    {f : Source.Function} (hf : p.functions[k]? = some f) :
    ∃ g, r.module.functions[k]? = some g ∧
      let os := functionOwners settings (enterAll {} (callables p)).1 f
      os.map Owner.index = List.range g.localCount ∧
        os.map Owner.name = (g.params ++ g.locals).map Local.name ∧
        ∀ o ∈ os, o.Owns g.body.subnodes := by
  obtain ⟨g, hg, hlowered⟩ := lowerProgram_getElem?_quiet h hquiet hf
  obtain ⟨st, hlocals, hall⟩ := lowerFunction_allots hlowered
  refine ⟨g, hg, ?_, ?_, hall.owns⟩
  · have hlength := hall.length_eq
    rw [hall.indices, List.range_eq_range', Code.Function.localCount, ← List.length_append,
      ← hlocals, hlength]
    simp
  · rw [← hlocals, hall.names]
    rfl

/-- A program with a constant that another one hides inside of a switch, and with a switch in a
    switch. One of the guards assigns to a variable. -/
def routing : Program where
  imports := []
  functions := [{
    name := "main"
    params := [⟨"n", .i32⟩]
    result := .i32
    bodySpan := .empty
    isExported := true
    span := .empty
    body := [
      .varDecl .empty .constVar [⟨⟨.empty, "k"⟩, some .i32, some (.literal .empty (.int 1))⟩],
      .varDecl .empty .letVar [⟨⟨.empty, "x"⟩, some .i32, some (.name .empty "n")⟩],
      .switchStmt .empty (.name .empty "x") [
        .mk (some (.name .empty "k")) [.block .empty [
          .varDecl .empty .constVar [⟨⟨.empty, "k"⟩, some .i32, some (.literal .empty (.int 2))⟩],
          .exprStmt .empty (.assign .empty .assign ⟨.empty, "x"⟩ (.name .empty "k"))]] .empty,
        .mk none [.switchStmt .empty (.name .empty "k") [
          .mk (some (.assign .empty .assign ⟨.empty, "x"⟩ (.literal .empty (.int 7))))
            [.breakStmt .empty] .empty]] .empty],
      .returnStmt .empty (some (.name .empty "x"))] }]

/-- The program is accepted without a report. -/
private theorem routing_lowered : ∃ r, lowerProgram {} routing = .ok r ∧ r.reports = [] := by
  have hlength : (lowerProgram {} routing).toOption.map (·.reports.length) = some 0 := by
    decide +kernel
  cases hr : lowerProgram {} routing with
  | error e =>
    rw [hr] at hlength
    cases hlength
  | ok r =>
    rw [hr] at hlength
    exact ⟨r, rfl, List.eq_nil_of_length_eq_zero (Option.some.inj hlength)⟩

/-- Two locals are named after the same constant, and two after no variable at all. -/
theorem routing_owners : ∃ f r g, routing.functions[0]? = some f ∧
    lowerProgram {} routing = .ok r ∧ r.reports = [] ∧ r.module.functions[0]? = some g ∧
    let os := functionOwners {} (enterAll {} (callables routing)).1 f
    os.map Owner.name = ["n", "k", "x", "condition$0", "k", "condition$1"] ∧
      os.map Owner.index = List.range g.localCount ∧
      os.map Owner.name = (g.params ++ g.locals).map Local.name ∧
      ∀ o ∈ os, o.Owns g.body.subnodes := by
  obtain ⟨r, hr, hquiet⟩ := routing_lowered
  obtain ⟨g, hg, howners⟩ := lowerProgram_owners hr hquiet (k := 0) rfl
  exact ⟨_, r, g, rfl, hr, hquiet, hg, by decide +kernel, howners⟩

end Weir.Lowering
