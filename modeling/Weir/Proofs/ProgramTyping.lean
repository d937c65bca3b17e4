import Weir.Lowering.Program
import Weir.Proofs.StatementLabels
import Weir.Proofs.StatementTyping
import Weir.Proofs.TypedRun

/-!
# Typing of lowered programs

Every program that is lowered yields a typed module, whatever was reported on the way. So lowered
modules pass their check, and no run of them meets a value of another slot than it asks for.

## Key results

- `lowerProgram_typed`: lowered modules are typed
- `lowerProgram_check`: lowered modules pass their check, and no function binds a label twice
- `lowerProgram_answers`: every call of a function of a lowered module that returns yields a value
  of its result, and none ends over the slot of a value
-/

namespace Weir.Lowering

open Weir.Code (Callee Import Label Local Module Node Slot TypeContext TypedAll boundLabelsAll
  boundLabelsAll_append)
open Weir.Source (PointerWidth Program Span Ty)

/-! ## The table of callables -/

/-- A name that is inserted is the new one, or was there before. -/
private theorem find?_insert {t : FunctionTable} {name name' : String} {s s' : Signature}
    (h : (t.insert name s).find? name' = some s') :
    t.find? name' = some s' ∨ (name' = name ∧ s' = s) := by
  unfold FunctionTable.insert at h
  split at h
  · exact .inl h
  · unfold FunctionTable.find? at h ⊢
    rw [List.lookup_append, Option.or_eq_some_iff] at h
    rcases h with h | ⟨-, h⟩
    · exact .inl h
    · rw [List.lookup_cons, List.lookup_nil] at h
      cases hname : name' == name with
      | true =>
        rw [hname] at h
        exact .inr ⟨by simpa using hname, (Option.some.inj h).symm⟩
      | false =>
        rw [hname] at h
        cases h

/-- A callable that can be found was there before, or is one of those entered. -/
theorem find?_enterAll {cs : List (String × Signature × Span)} {t : FunctionTable}
    {name : String} {s : Signature} (h : (enterAll t cs).1.find? name = some s) :
    t.find? name = some s ∨ ∃ span, (name, s, span) ∈ cs := by
  -- A name is in the table from the start, or the first entry that has it puts it there.
  induction cs generalizing t with
  | nil => exact .inl h
  | cons c cs ih =>
    obtain ⟨name', s', span⟩ := c
    have hrest : (enterAll (t.insert name' s') cs).1.find? name = some s := by
      unfold enterAll at h
      dsimp only at h
      split at h <;> exact h
    rcases ih hrest with hfind | ⟨span', hmem⟩
    · rcases find?_insert hfind with hold | ⟨rfl, rfl⟩
      · exact .inl hold
      · exact .inr ⟨span, List.mem_cons_self⟩
    · exact .inr ⟨span', List.mem_cons_of_mem _ hmem⟩

/-- Results that all succeed are the results for the elements of the list, in order. -/
theorem map_eq_of_mapM {α β : Type} {f : α → Except Error β} {xs : List α} {ys : List β}
    (h : xs.mapM f = .ok ys) : xs.map f = ys.map .ok := by
  induction xs generalizing ys with
  | nil =>
    cases h
    rfl
  | cons x xs ih =>
    rw [List.mapM_cons] at h
    cases hx : f x with
    | error e => rw [hx] at h; cases h
    | ok y =>
      cases hxs : xs.mapM f with
      | error e => rw [hx, hxs] at h; cases h
      | ok zs =>
        rw [hx, hxs] at h
        cases h
        rw [List.map_cons, List.map_cons, hx, ih hxs]

/-! ## Functions -/

section

variable {settings : Settings} {functions : FunctionTable} {f : Source.Function}
  {g : Code.Function} {reports : List Diagnostic}

/-- Parameters are bound to the locals that they are numbered by. -/
theorem bindParams_eq_ok {w : PointerWidth} {span : Span} {ps : List Source.Param}
    {index : Nat} {st st' : State} {u : Unit} (h : bindParams span index ps st = .ok u st')
    (hbound : st.WellBound w)
    (hlocals : (st.locals.drop index).map Local.slot = ps.map (·.ty.slot w)) :
    st'.labels = st.labels ∧ st'.locals = st.locals ∧ st'.WellBound w := by
  induction ps generalizing index st with
  | nil =>
    cases h
    exact ⟨rfl, rfl, hbound⟩
  | cons p ps ih =>
    obtain ⟨u, st₁, hbind, h⟩ := Lower.bind_eq_ok h
    obtain ⟨ds, rfl⟩ := Lower.bindVariable_eq_ok hbind
    -- The first parameter is the first of the locals that are not bound yet.
    have hlocal : st.locals[index]?.map Local.slot = some (p.ty.slot w) := by
      have hfirst := congrArg (·[0]?) hlocals
      simpa using hfirst
    have hnext : (st.locals.drop (index + 1)).map Local.slot = ps.map (·.ty.slot w) := by
      have htail := congrArg List.tail hlocals
      simpa using htail
    have hbound₁ : ((st.bound p.name ⟨index, p.ty, false⟩).noting ds).WellBound w :=
      hbound.bound hlocal
    have hrest := ih h hbound₁ hnext
    exact hrest

/-- The parts of a lowered function: its parameters are bound, and then its statements are
    lowered. -/
theorem lowerFunction_parts (h : lowerFunction settings functions f = .ok (g, reports)) :
    let params : List Local := f.params.map fun p => ⟨p.name, p.ty.slot settings.width⟩
    ∃ u st nodes st', bindParams f.span 0 f.params { locals := params } = .ok u st ∧
      lowerAll ⟨settings, functions, f.result⟩ f.body st = .ok nodes st' ∧
      g = ⟨f.name, params, f.result.slot settings.width, st'.locals.drop params.length,
        bodyNode f.result nodes, f.isExported⟩ ∧
      reports = st'.reports := by
  unfold lowerFunction at h
  dsimp only at h
  split at h
  next body st' hbody =>
    cases h
    obtain ⟨u, st, hparams, hbody⟩ := Lower.bind_eq_ok hbody
    obtain ⟨nodes, st₁, hnodes, hbody⟩ := Lower.bind_eq_ok hbody
    obtain ⟨u', st₂, hfinish, hbody⟩ := Lower.bind_eq_ok hbody
    cases hbody
    -- That all label scopes are closed is only checked.
    obtain rfl : st' = st₁ := by
      obtain ⟨s, st₃, hget, hfinish⟩ := Lower.bind_eq_ok hfinish
      cases hget
      dsimp only at hfinish
      split at hfinish
      · cases hfinish
      · cases hfinish
        rfl
    exact ⟨u, st, nodes, st', hparams, hnodes, rfl, rfl⟩
  next => cases h

/-- A function that reports nothing reports nothing while its statements are lowered. -/
theorem lowerFunction_quiet (h : lowerFunction settings functions f = .ok (g, [])) :
    let params : List Local := f.params.map fun p => ⟨p.name, p.ty.slot settings.width⟩
    ∃ u st nodes st', bindParams f.span 0 f.params { locals := params } = .ok u st ∧
      lowerAll ⟨settings, functions, f.result⟩ f.body st = .ok nodes st' ∧
      st'.reports = st.reports ∧
      g = ⟨f.name, params, f.result.slot settings.width, st'.locals.drop params.length,
        bodyNode f.result nodes, f.isExported⟩ := by
  obtain ⟨u, st, nodes, st', hparams, hnodes, hg, hreports⟩ := lowerFunction_parts h
  -- The reports at the end are all there are, so there were none after the parameters either.
  have hstart : st.reports = [] :=
    List.prefix_nil.1 (hreports ▸ (lowerAll_advances f.body hnodes).reports)
  exact ⟨u, st, nodes, st', hparams, hnodes, hreports.symm.trans hstart.symm, hg⟩

/-- A lowered function has the parameters and the result of its source, and its other locals are
    those that were declared while its statements were lowered. -/
theorem lowerFunction_eq_ok (h : lowerFunction settings functions f = .ok (g, reports)) :
    g.paramSlots = f.params.map (·.ty.slot settings.width) ∧
      g.result = f.result.slot settings.width ∧
      ∃ st nodes st', st.labels = {} ∧ st.WellBound settings.width ∧
        st.locals = g.params ∧
        lowerAll ⟨settings, functions, f.result⟩ f.body st = .ok nodes st' ∧
        g.body = bodyNode f.result nodes ∧ g.locals = st'.locals.drop st.locals.length := by
  obtain ⟨u, st, nodes, st', hparams, hnodes, rfl, -⟩ := lowerFunction_parts h
  obtain ⟨hlabels, hlocals, hbound⟩ := bindParams_eq_ok (w := settings.width) hparams
    (by simp [State.WellBound]) (by simp)
  refine ⟨by simp [Code.Function.paramSlots], rfl, st, nodes, st', hlabels, hbound, hlocals,
    hnodes, rfl, ?_⟩
  rw [hlocals]

/-- The body of a function is its statements, and a trap after them if there is a result and the
    last of them does not leave the function. -/
theorem bodyNode_cases (result : Ty) (nodes : List Node) :
    (bodyNode result nodes = .block none nodes ∧
        (result.isVoid ∨ ∃ front last, nodes = front ++ [last] ∧ last.isTerminator)) ∨
      (result.isVoid = false ∧ bodyNode result nodes = .block none (nodes ++ [.unreachable])) := by
  unfold bodyNode
  dsimp only
  cases hvoid : result.isVoid with
  | true => exact .inl ⟨rfl, .inl rfl⟩
  | false =>
    -- With a result, only the last statement can show that the end is not reached.
    rcases List.eq_nil_or_concat nodes with rfl | ⟨front, last, rfl⟩
    · exact .inr ⟨rfl, rfl⟩
    · rw [List.concat_eq_append, List.getLast?_concat]
      cases hlast : last.isTerminator with
      | true => exact .inl ⟨by simp [hlast], .inr ⟨front, last, rfl, hlast⟩⟩
      | false => exact .inr ⟨rfl, by simp [hlast]⟩

/-- The body of a function yields its result: control only reaches its end if there is none. -/
private theorem bodyNode_typed {Γ : TypeContext} {labels : List Label} {w : PointerWidth}
    {result : Ty} {nodes : List Node} (h : ∀ n ∈ nodes, n.Typed Γ labels .none) :
    (bodyNode result nodes).Typed Γ labels (result.slot w) := by
  rcases bodyNode_cases result nodes with ⟨hbody, hvoid | ⟨front, last, rfl, hlast⟩⟩ | ⟨-, hbody⟩
  · rw [hbody, Ty.slot_of_isVoid hvoid]
    exact .sequence (.of_forall h)
  · rw [hbody]
    refine .sequence (.concat (fun m hm => h m (List.mem_append_left _ hm)) ?_)
    exact (h last (by simp)).of_isTerminator hlast
  · rw [hbody]
    exact .sequence (.concat h .unreachable)

/-- The end of a body binds no label. -/
private theorem bodyNode_boundLabels {result : Ty} {nodes : List Node} :
    (bodyNode result nodes).boundLabels = boundLabelsAll nodes := by
  rcases bodyNode_cases result nodes with ⟨hbody, -⟩ | ⟨-, hbody⟩
  · rw [hbody, Node.boundLabels, Option.toList_none, List.nil_append]
  · rw [hbody, Node.boundLabels, Option.toList_none, List.nil_append, boundLabelsAll_append]
    exact List.append_nil _

end

/-! ## Programs -/

section

variable {settings : Settings} {p : Program} {r : Lowered}

/-- The parts of a lowered program. -/
theorem lowerProgram_eq_ok (h : lowerProgram settings p = .ok r) :
    ∃ functions, ∃ lowered : List (Code.Function × List Diagnostic),
      functions = (enterAll {} (callables p)).1 ∧
      p.functions.map (lowerFunction settings functions) = lowered.map .ok ∧
      r.module = ⟨p.imports.map (lowerImport settings), lowered.map (·.1)⟩ ∧
      r.reports = (enterAll {} (callables p)).2 ++ lowered.flatMap (·.2) := by
  unfold lowerProgram at h
  dsimp only at h
  -- One function that fails fails the program.
  cases hlowered : p.functions.mapM (lowerFunction settings (enterAll {} (callables p)).1) with
  | error e => rw [hlowered] at h; cases h
  | ok lowered =>
    rw [hlowered] at h
    cases h
    exact ⟨_, lowered, rfl, map_eq_of_mapM hlowered, rfl, rfl⟩

/-- The function at a position is lowered to the function at that position, whose reports are
    reports of the program. -/
theorem lowerProgram_getElem? (h : lowerProgram settings p = .ok r) {k : Nat}
    {f : Source.Function} (hf : p.functions[k]? = some f) :
    ∃ g ds, r.module.functions[k]? = some g ∧ (∀ d ∈ ds, d ∈ r.reports) ∧
      lowerFunction settings (enterAll {} (callables p)).1 f = .ok (g, ds) := by
  obtain ⟨functions, lowered, rfl, hlowered, hmodule, hreports⟩ := lowerProgram_eq_ok h
  have hk := congrArg (·[k]?) hlowered
  simp only [List.getElem?_map, hf, Option.map_some] at hk
  obtain ⟨⟨g, ds⟩, hg, heq⟩ := Option.map_eq_some_iff.1 hk.symm
  refine ⟨g, ds, ?_, fun d hd => ?_, heq.symm⟩
  · rw [hmodule, List.getElem?_map, hg]
    rfl
  · rw [hreports]
    exact List.mem_append_right _ (List.mem_flatMap.2 ⟨(g, ds), List.mem_of_getElem? hg, hd⟩)

/-- In a program without reports no function reports anything. -/
theorem lowerProgram_getElem?_quiet (h : lowerProgram settings p = .ok r)
    (hquiet : r.reports = []) {k : Nat} {f : Source.Function} (hf : p.functions[k]? = some f) :
    ∃ g, r.module.functions[k]? = some g ∧
      lowerFunction settings (enterAll {} (callables p)).1 f = .ok (g, []) := by
  obtain ⟨g, ds, hg, hreports, hlowered⟩ := lowerProgram_getElem? h hf
  rw [hquiet] at hreports
  obtain rfl := List.eq_nil_iff_forall_not_mem.2 fun d hd => List.not_mem_nil (hreports d hd)
  exact ⟨g, hg, hlowered⟩

/-- Every callable of a program is a callee of the lowered module, by its number. -/
private theorem callee?_of_find? (h : lowerProgram settings p = .ok r) {name : String}
    {s : Signature} (hfind : (enterAll {} (callables p)).1.find? name = some s) :
    ∃ c, r.module.callee? s.id = some c ∧ c.params = s.params.map (·.slot settings.width) ∧
      c.result = s.result.slot settings.width := by
  obtain ⟨functions, lowered, rfl, hlowered, hmodule, -⟩ := lowerProgram_eq_ok h
  rcases find?_enterAll hfind with hnone | ⟨span, hmem⟩
  · cases hnone
  rw [hmodule]
  -- The name stands for an import or for a function, whichever was entered first.
  rcases List.mem_append.1 hmem with himport | hfunction
  · obtain ⟨i, hi, heq⟩ := List.mem_mapIdx.1 himport
    cases heq
    have hlt : i < (p.imports.map (lowerImport settings)).length := by simpa using hi
    refine ⟨_, Module.callee?_import hlt, ?_, ?_⟩
    · simp [Callee.params, lowerImport]
    · simp [Callee.result, lowerImport]
  · obtain ⟨k, hk, heq⟩ := List.mem_mapIdx.1 hfunction
    cases heq
    obtain ⟨g, ds, hg, -, hlowered⟩ := lowerProgram_getElem? h (List.getElem?_eq_getElem hk)
    obtain ⟨hparams, hres, -⟩ := lowerFunction_eq_ok hlowered
    have hlength : p.imports.length = (p.imports.map (lowerImport settings)).length := by simp
    rw [hmodule] at hg
    refine ⟨.defined g, ?_, ?_, hres⟩
    · show Module.callee? _ (p.imports.length + k) = _
      rw [hlength, Module.callee?_function _ k, hg]
      rfl
    · simp [Callee.params, hparams]

/-- A function of a lowered module is a lowered function, whose reports are reports of the
    program. -/
theorem exists_lowerFunction (h : lowerProgram settings p = .ok r) {g : Code.Function}
    (hg : g ∈ r.module.functions) : ∃ f ds, f ∈ p.functions ∧ (∀ d ∈ ds, d ∈ r.reports) ∧
      lowerFunction settings (enterAll {} (callables p)).1 f = .ok (g, ds) := by
  obtain ⟨functions, lowered, rfl, hlowered, hmodule, hreports⟩ := lowerProgram_eq_ok h
  rw [hmodule] at hg
  obtain ⟨⟨g', ds⟩, hmem, rfl⟩ := List.mem_map.1 hg
  have hok : (.ok (g', ds) : Except Error _) ∈ lowered.map .ok := List.mem_map_of_mem hmem
  rw [← hlowered] at hok
  obtain ⟨f, hf, heq⟩ := List.mem_map.1 hok
  refine ⟨f, ds, hf, fun d hd => ?_, heq⟩
  rw [hreports]
  exact List.mem_append_right _ (List.mem_flatMap.2 ⟨(g', ds), hmem, hd⟩)

/-- Every program that is lowered yields a typed module, whatever was reported on the way. -/
theorem lowerProgram_typed (h : lowerProgram settings p = .ok r) : r.module.Typed := by
  intro g hg
  obtain ⟨f, ds, -, -, hf⟩ := exists_lowerFunction h hg
  obtain ⟨hparams, hresult, st, nodes, st', hlabels, hbound, hlocals, hnodes, hbody, hdropped⟩ :=
    lowerFunction_eq_ok hf
  have hadv := lowerAll_advances f.body hnodes
  have hfits : (⟨settings, (enterAll {} (callables p)).1, f.result⟩ : FunctionContext).Fits
      (r.module.typeContext g) := by
    refine ⟨hresult, fun name s hfind => ?_⟩
    obtain ⟨c, hc, hcparams, hcresult⟩ := callee?_of_find? h hfind
    show (r.module.callee? s.id).map (fun c => (c.params, c.result)) = _
    rw [hc, Option.map_some, hcparams, hcresult]
  -- The locals of the function are its parameters and what was declared after them.
  have hall : st'.LocalsOf (r.module.typeContext g) := by
    obtain ⟨more, hmore⟩ := hadv.locals
    have heq : st'.locals.map Local.slot = g.params.map Local.slot ++ g.locals.map Local.slot := by
      rw [hdropped, ← hlocals, ← List.map_append, ← hmore, List.drop_left]
    exact ⟨[], (List.append_nil _).trans heq⟩
  have hcover : Covers [] st.labels.scopes st.labels.next st'.labels.next := by
    refine ⟨fun scope hscope => ?_, fun scope hscope => ?_, by simp⟩ <;>
      · rw [hlabels] at hscope
        cases hscope
  rw [hbody, hresult]
  exact bodyNode_typed (lowerAll_typed hfits f.body hnodes hbound hall hcover)

/-- Lowered modules pass their check: every jump finds its target, no label is bound again where it
    is in scope, locals are declared, and calls have a callee and as many arguments as it has
    parameters. Moreover, no two nodes of a function bind the same label. -/
theorem lowerProgram_check (h : lowerProgram settings p = .ok r) :
    r.module.check = .ok () ∧ ∀ f ∈ r.module.functions,
      f.body.Scoped (r.module.surroundings f) [] ∧ f.body.boundLabels.Nodup := by
  have hscoped : ∀ f ∈ r.module.functions, f.body.Scoped (r.module.surroundings f) [] :=
    fun f hf => (lowerProgram_typed h f hf).scoped (r.module.typeContext_within f) f.body
  refine ⟨Module.check_eq_ok_iff.2 hscoped, fun g hg => ⟨hscoped g hg, ?_⟩⟩
  obtain ⟨f, ds, -, -, hf⟩ := exists_lowerFunction h hg
  obtain ⟨-, -, st, nodes, st', -, -, -, hnodes, hbody, -⟩ := lowerFunction_eq_ok hf
  rw [hbody, bodyNode_boundLabels]
  exact (lowerAll_distinct f.body hnodes).nodup

/-- A program that sums up the numbers below its argument. What follows the sum is reported: a
    second default clause, and in it a function that does not exist. -/
def tally : Program where
  imports := [⟨"log", [.i64], .void⟩]
  functions := [{
    name := "main"
    params := [⟨"n", .u8⟩]
    result := .i64
    bodySpan := .empty
    isExported := true
    span := .empty
    body := [
      .varDecl .empty .letVar [⟨⟨.empty, "total"⟩, some .i64, some (.literal .empty (.int 0))⟩],
      .whileStmt .empty (.name .empty "n") (some (.block .empty [
        .exprStmt .empty (.assign .empty .sub ⟨.empty, "n"⟩ (.literal .empty (.int 1))),
        .exprStmt .empty (.assign .empty .add ⟨.empty, "total"⟩ (.name .empty "n")),
        .exprStmt .empty (.call .empty ⟨.empty, "log"⟩ [.name .empty "total"])])),
      .switchStmt .empty (.name .empty "total") [
        .mk none [.breakStmt .empty] .empty,
        .mk none [.exprStmt .empty (.call .empty ⟨.empty, "missing"⟩ [])] .empty],
      .returnStmt .empty (some (.name .empty "total"))] }]

/-- Both problems of the program are reported, and its one function is called under the id after the
    import. -/
private theorem tally_lowered : ∃ r f, lowerProgram {} tally = .ok r ∧
    r.module.callee? 1 = some (.defined f) ∧
    r.module.imports = [⟨"log", [.i64], .none⟩] ∧ f.paramSlots = [.i32] ∧ f.result = .i64 ∧
    r.reports.length = 2 := by
  have hok : (lowerProgram {} tally).toOption.isSome = true := by
    decide +kernel
  have hfacts : ((lowerProgram {} tally).toOption.all fun r =>
      decide (r.module.imports = [⟨"log", [.i64], .none⟩] ∧ r.reports.length = 2 ∧
        r.module.functions.map Code.Function.paramSlots = [[.i32]] ∧
        r.module.functions.map Code.Function.result = [.i64])) = true := by
    decide +kernel
  cases hr : lowerProgram {} tally with
  | error e =>
    rw [hr] at hok
    cases hok
  | ok r =>
    rw [hr] at hfacts
    obtain ⟨himports, hreports, hparams, hresult⟩ := of_decide_eq_true hfacts
    obtain ⟨f, fs, hfunctions, hf, hfs⟩ := List.map_eq_cons_iff.1 hparams
    rw [hfunctions] at hresult
    refine ⟨r, f, rfl, ?_, himports, hf, (List.cons.inj hresult).1, hreports⟩
    -- The function comes after the one import.
    unfold Module.callee?
    rw [himports, hfunctions]
    rfl

/-- The code that was lowered with two reports passes the check all the same. -/
theorem tally_check : ∃ r, lowerProgram {} tally = .ok r ∧ r.reports.length = 2 ∧
    r.module.check = .ok () ∧ ∀ f ∈ r.module.functions,
      f.body.Scoped (r.module.surroundings f) [] ∧ f.body.boundLabels.Nodup := by
  obtain ⟨r, f, hr, -, -, -, -, hreports⟩ := tally_lowered
  exact ⟨r, hr, hreports, lowerProgram_check hr⟩

/-- No call of a function of a lowered program meets a value of another slot than it asks for, and
    what it yields lies in the slot of the result of the function: none exactly if there is none. -/
theorem lowerProgram_answers {σ : Type} (h : lowerProgram settings p = .ok r)
    {env : Machine.Environment σ} (henv : env.module = r.module) (hhosts : env.HostsFailAsHosts)
    (hanswer : env.HostsAnswer) {id : Nat} {f : Code.Function} {args : List Code.Value}
    (hf : r.module.callee? id = some (.defined f)) (hargs : args.map Code.Value.slot = f.paramSlots)
    (clock : Nat) (s : Machine.State σ) :
    Machine.Answers f.result (env.call clock id args s) ∧
      ∀ name, r.module.findFunction? name = some id →
        Machine.Answers f.result (env.invoke clock name args s) := by
  have htyped : env.module.Typed := henv ▸ lowerProgram_typed h
  have hcall : Machine.Answers f.result (env.call clock id args s) :=
    Machine.call_answers_of_typed (c := .defined f) htyped hhosts hanswer (henv ▸ hf) hargs s
  refine ⟨hcall, fun name hname => ?_⟩
  unfold Machine.Environment.invoke
  rw [henv, hname]
  exact hcall

/-- A host that keeps what it is given, and refuses a fourth argument. -/
def keepingHost : Machine.Host (List Code.Value) := fun args kept =>
  if kept.length < 3 then .ok none (kept ++ args) else .error (.host "full") kept

/-- With a host that may be full, the function still answers as its result says. -/
theorem tally_answers : ∃ r f, lowerProgram {} tally = .ok r ∧
    r.module.callee? 1 = some (.defined f) ∧ f.paramSlots = [.i32] ∧ f.result = .i64 ∧
    let env : Machine.Environment (List Code.Value) := ⟨r.module, fun _ => some keepingHost⟩
    Machine.Answers f.result (env.call 5 1 [.i32 4] ⟨[], some 9, 0, []⟩) ∧
      ∀ name, r.module.findFunction? name = some 1 →
        Machine.Answers f.result (env.invoke 5 name [.i32 4] ⟨[], some 9, 0, []⟩) := by
  obtain ⟨r, f, hr, hf, himports, hparams, hresult, -⟩ := tally_lowered
  refine ⟨r, f, hr, hf, hparams, hresult, ?_⟩
  refine lowerProgram_answers hr rfl ?_ ?_ hf (by rw [hparams]; rfl) 5 _
  · intro id host hbound args w reason w' hfail
    cases hbound
    simp only [keepingHost] at hfail
    split at hfail
    · cases hfail
    · cases hfail
      exact ⟨"full", rfl⟩
  · intro id i host hi hbound args w v w' hok
    cases hbound
    -- The only import has no result, and the host never yields a value.
    have hnone : i.result = .none := by
      unfold Module.callee? at hi
      split at hi
      next hlt =>
        rw [himports] at hi hlt
        obtain rfl : id = 0 := by simpa using hlt
        cases hi
        rfl
      next => simp at hi
    rw [hnone]
    simp only [keepingHost] at hok
    split at hok
    · cases hok
      rfl
    · cases hok

end

end Weir.Lowering
