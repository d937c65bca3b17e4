import Weir.Proofs.StatementRanges

/-!
# Ranges in lowered programs

Every program that is lowered yields a module that respects its source types, whatever was reported
on the way. So a run that starts with arguments in range, and whose hosts answer in range, keeps
every local in the range of its type, and so is every value that an expression or a call yields.

## Key results

- `programTypes`: the source types of a program
- `lowerProgram_describes`: lowered modules respect the source types of their program
- `lowerProgram_in_range`: at every moment of a run, locals and values are in range
-/

namespace Weir.Lowering

open Weir.Code (Node Slot SourceTypes AllRespect LastMayYield Value)
open Weir.Machine (Environment LocalsInRange ModuleTypes Moment)
open Weir.Source (Expr Program Ty)

/-! ## Source types -/

/-- The defined function with a given number: functions are numbered after imports. -/
def definition? (p : Program) (id : Nat) : Option Source.Function :=
  if id < p.imports.length then none else p.functions[id - p.imports.length]?

/-- The source types of a program, by the numbers of its callables. -/
def programTypes (settings : Settings) (p : Program) : ModuleTypes where
  signature? id := (callables p)[id]?.map fun (_, s, _) => (s.params, s.result)
  locals id := match definition? p id with
    | some f => localTypes settings (enterAll {} (callables p)).1 f
    | none => []

section

variable {settings : Settings} {p : Program}

/-- Functions are called under the ids that follow those of the imports. -/
theorem callables_function (p : Program) (k : Nat) :
    (callables p)[p.imports.length + k]? = p.functions[k]?.map fun f =>
      (f.name, ⟨p.imports.length + k, f.params.map Source.Param.ty, f.result⟩, f.span) := by
  unfold callables
  dsimp only
  -- The functions stand behind the imports in the table.
  rw [List.getElem?_append_right (by simp), List.length_mapIdx, Nat.add_sub_cancel_left,
    List.getElem?_mapIdx]

/-- Imports are called under the first ids. -/
theorem callables_import {i : Nat} (hi : i < p.imports.length) :
    (callables p)[i]? = some (p.imports[i].name, ⟨i, p.imports[i].params, p.imports[i].result⟩,
      .empty) := by
  unfold callables
  dsimp only
  rw [List.getElem?_append_left (by simpa using hi), List.getElem?_mapIdx,
    List.getElem?_eq_getElem hi]
  rfl

/-- A callable stands at its number. -/
private theorem callables_id {name : String} {s : Signature} {span : Source.Span}
    (h : (name, s, span) ∈ callables p) : (callables p)[s.id]? = some (name, s, span) := by
  rcases List.mem_append.1 h with himport | hfunction
  · obtain ⟨i, hi, heq⟩ := List.mem_mapIdx.1 himport
    cases heq
    exact callables_import hi
  · obtain ⟨k, hk, heq⟩ := List.mem_mapIdx.1 hfunction
    cases heq
    rw [callables_function, List.getElem?_eq_getElem hk]
    rfl

/-- What a name can be called for has its signature at its number. -/
private theorem signature?_of_find? {name : String} {s : Signature}
    (h : (enterAll {} (callables p)).1.find? name = some s) :
    (programTypes settings p).signature? s.id = some (s.params, s.result) := by
  rcases find?_enterAll h with hnone | ⟨span, hmem⟩
  · cases hnone
  · show (callables p)[s.id]?.map _ = _
    rw [callables_id hmem]
    rfl

/-- A defined function has the signature that its text gives it. -/
private theorem signature?_of_definition? {id : Nat} {f : Source.Function}
    (h : definition? p id = some f) :
    (programTypes settings p).signature? id = some (f.params.map Source.Param.ty, f.result) := by
  unfold definition? at h
  split at h
  next => cases h
  next hge =>
    have hid : p.imports.length + (id - p.imports.length) = id := by omega
    show (callables p)[id]?.map _ = _
    rw [← hid, callables_function, h]
    rfl

/-- A function of a program is lowered for its source types. -/
private theorem agrees_of_definition? {id : Nat} {f : Source.Function}
    (h : definition? p id = some f) :
    FunctionContext.Agrees ⟨settings, (enterAll {} (callables p)).1, f.result⟩
      ((programTypes settings p).ofFunction id) where
  result := ModuleTypes.result_ofFunction (signature?_of_definition? h)
  callables name s hfind := @signature?_of_find? settings p name s hfind

end

/-! ## Functions -/

section

variable {Γ : SourceTypes} {result : Ty} {nodes : List Node} {v : Value}

/-- Nodes yield what the last of them yields. -/
private theorem lastMayYield_concat {last : Node} (h : LastMayYield Γ (nodes ++ [last]) v) :
    last.MayYield Γ v := by
  induction nodes with
  | nil =>
    rcases h with ⟨-, hlast⟩ | hnil
    · exact hlast
    · cases hnil
  | cons n ns ih =>
    rcases h with ⟨hnil, -⟩ | hrest
    · simp at hnil
    · exact ih hrest

/-- Code that ends in a node that control does not pass yields nothing. -/
private theorem within_of_isTerminator {last : Node} {t : Ty}
    (h : ∀ n ∈ nodes ++ [last], n.Respects Γ) (hlast : last.isTerminator) :
    (Node.block none (nodes ++ [last])).Within Γ t := by
  refine ⟨Node.respects_block.2 h, fun v hv => ?_⟩
  have hyield : last.MayYield Γ v := lastMayYield_concat hv
  cases last <;> first | exact hyield.elim | cases hlast

/-- The body of a function respects its types if its statements do, and it leaves nothing that is
    not in the range of its result: where there is a result, control does not pass the end. -/
private theorem bodyNode_within (h : ∀ n ∈ nodes, n.Respects Γ) :
    (bodyNode result nodes).Within Γ result := by
  rcases bodyNode_cases result nodes with ⟨hbody, hvoid | ⟨front, last, rfl, hlast⟩⟩ | ⟨-, hbody⟩
  · rw [hbody]
    refine Node.within_of_bounds?_eq_none (Node.respects_block.2 h) ?_
    cases result <;> first | rfl | cases hvoid
  · rw [hbody]
    exact within_of_isTerminator h hlast
  · rw [hbody]
    have hended : ∀ n ∈ nodes ++ [.unreachable], n.Respects Γ :=
      List.forall_mem_append.2 ⟨h, List.forall_mem_singleton.2 trivial⟩
    exact within_of_isTerminator hended rfl

end

/-! ## Programs -/

section

variable {settings : Settings} {p : Program} {r : Lowered}

/-- A defined function of a lowered module is lowered from the function of its number. -/
private theorem definition?_of_callee? (h : lowerProgram settings p = .ok r) {id : Nat}
    {g : Code.Function} (hg : r.module.callee? id = some (.defined g)) :
    ∃ f ds, definition? p id = some f ∧
      lowerFunction settings (enterAll {} (callables p)).1 f = .ok (g, ds) := by
  obtain ⟨functions, lowered, rfl, hlowered, hmodule, -⟩ := lowerProgram_eq_ok h
  rw [hmodule] at hg
  unfold Code.Module.callee? at hg
  dsimp only at hg
  rw [List.length_map] at hg
  split at hg
  next =>
    obtain ⟨i, -, heq⟩ := Option.map_eq_some_iff.1 hg
    cases heq
  next hge =>
    obtain ⟨g', hget, heq⟩ := Option.map_eq_some_iff.1 hg
    cases heq
    rw [List.getElem?_map] at hget
    obtain ⟨⟨_, ds⟩, hlow, rfl⟩ := Option.map_eq_some_iff.1 hget
    -- The lists of functions and of results are as long as each other.
    have hresult := congrArg (·[id - p.imports.length]?) hlowered
    simp only [List.getElem?_map, hlow, Option.map_some] at hresult
    obtain ⟨f, hf, heq⟩ := Option.map_eq_some_iff.1 hresult
    refine ⟨f, ds, ?_, heq⟩
    unfold definition?
    rw [if_neg hge, hf]

/-- The locals of a function besides its parameters are in the slots of their types. -/
private theorem lowerFunction_locals {functions : FunctionTable} {f : Source.Function}
    {g : Code.Function} {ds : List Diagnostic} {others : List Ty}
    (h : lowerFunction settings functions f = .ok (g, ds))
    (htypes : localTypes settings functions f = f.params.map Source.Param.ty ++ others) :
    List.Forall₂ (fun t l => t.slot settings.width = Code.Local.slot l) others g.locals := by
  obtain ⟨hslots, -⟩ := lowerFunction_records h
  obtain ⟨hparams, -⟩ := lowerFunction_eq_ok h
  rw [htypes, hparams, List.map_append, List.map_map] at hslots
  have hothers : others.map (·.slot settings.width) = g.locals.map Code.Local.slot :=
    (List.append_cancel_left hslots).symm
  -- The parameters agree on both sides, so what is left agrees too.
  have hsame : List.Forall₂ Eq (others.map (·.slot settings.width))
      (g.locals.map Code.Local.slot) := by
    rw [hothers]
    exact List.forall₂_refl _
  exact List.forall₂_map_right_iff.1 (List.forall₂_map_left_iff.1 hsame)

/-- Every program that is lowered yields a module that respects its source types, whatever was
    reported on the way. -/
theorem lowerProgram_describes (h : lowerProgram settings p = .ok r) :
    (programTypes settings p).DescribesAll r.module := by
  intro id g hg
  obtain ⟨f, ds, hf, hlowered⟩ := definition?_of_callee? h hg
  have hagrees := @agrees_of_definition? settings p id f hf
  have hlocals : (programTypes settings p).locals id =
      localTypes settings (enterAll {} (callables p)).1 f := by
    show (match definition? p id with | some f => localTypes settings _ f | none => []) = _
    rw [hf]
  obtain ⟨-, st, nodes, st', hst, hnodes, hbody⟩ := lowerFunction_records hlowered
  -- The body is typed in the state after the parameters are bound.
  have hrespect : ∀ n ∈ nodes, n.Respects ((programTypes settings p).ofFunction id) := by
    refine lowerAll_respects hagrees f.body hnodes hst (parameters_consistent f.params) ?_
    show _ <+: (programTypes settings p).locals id
    rw [hlocals]
    exact List.prefix_refl _
  have hwithin : (bodyNode f.result nodes).Within _ f.result := bodyNode_within hrespect
  obtain ⟨others, htypes, -⟩ := exists_localTypes settings (enterAll {} (callables p)).1 f
  refine ⟨hbody ▸ hwithin.respects, ?_, ?_⟩
  · rw [hagrees.result, hbody]
    exact hwithin.contains
  · refine ⟨_, _, others, signature?_of_definition? hf, hlocals.trans htypes, ?_⟩
    refine (lowerFunction_locals hlowered htypes).imp fun t l hslot hsmall => ?_
    rw [← hslot, Ty.slot_of_bounds? hsmall]

end

/-! ## Runs -/

variable {σ : Type}

/-- At a moment of a run, every local holds a value of its type, before and after the next node is
    run, and what expressions and calls yield then are values of their types. A context agrees with
    the function if names stand for its locals and for callables with their types, as they do in
    each context that the function is lowered in (`State.Records.agrees`). -/
structure HoldsRanges (env : Environment σ) (P : ModuleTypes) (m : Moment σ) : Prop where
  /-- Every local holds a value of its type, -/
  locals : LocalsInRange (P.locals m.function) m.state
  /-- also after the next node is run, -/
  after : ∀ v s', Machine.evalNode (env.call m.clock) m.clock m.node m.state = .ok v s' →
    LocalsInRange (P.locals m.function) s'
  /-- and after it is left in some other way. -/
  left : ∀ e s', Machine.evalNode (env.call m.clock) m.clock m.node m.state = .error e s' →
    LocalsInRange (P.locals m.function) s'
  /-- An expression that is compiled with the variables of the function has a value of its type. -/
  expression : ∀ ctx : Context, ctx.Agrees (P.ofFunction m.function) → ∀ (e : Expr) expected v s',
    let c := (compile ctx e expected).value
    Machine.evalNode (env.call m.clock) m.clock c.node m.state = .ok (some v) s' →
      c.ty.Contains v
  /-- If a callee is called next, what it returns is a value of its result. -/
  called : ∀ callee args slot, m.node = .call callee args slot →
    ∀ params result, P.signature? callee = some (params, result) → ∀ v s',
      Machine.evalNode (env.call m.clock) m.clock m.node m.state = .ok (some v) s' →
        result.Contains v

/-- If a run of a lowered program starts with arguments in the ranges of the parameters, and hosts
    answer in the ranges of the results of their imports, then at every moment the locals that
    variables of small types are kept in hold numbers of these types, and the values of expressions
    and of calls are in the ranges of their types, too. Whatever was reported does not matter. -/
theorem lowerProgram_in_range {settings : Settings} {p : Program} {r : Lowered}
    (h : lowerProgram settings p = .ok r) {env : Environment σ} (henv : env.module = r.module)
    (hhosts : env.HostsInRange (programTypes settings p)) {id : Nat} {params : List Ty}
    {result : Ty} (hsig : (programTypes settings p).signature? id = some (params, result))
    {args : List Value} (hargs : List.Forall₂ Ty.Contains params args) (clock : Nat)
    (s : Machine.State σ) :
    (∀ v s', env.call clock id args s = .ok (some v) s' → result.Contains v) ∧
      (∀ name, r.module.findFunction? name = some id → ∀ v s',
        env.invoke clock name args s = .ok (some v) s' → result.Contains v) ∧
      ∀ m, env.Passes clock id args s m → HoldsRanges env (programTypes settings p) m := by
  have hmodule : (programTypes settings p).DescribesAll env.module :=
    henv ▸ lowerProgram_describes h
  have hcall : ∀ v s', env.call clock id args s = .ok (some v) s' → result.Contains v := by
    intro v s' hrun
    -- Nothing is asked of the locals of the caller, so a type that has all values will do.
    let types : List Ty := s.locals.map fun _ => .void
    have hkeeps : Machine.Keeps (LocalsInRange types) (env.call clock id args)
        (fun v => ∀ x, v = some x → result.Contains x) (fun e => e.isAbort) :=
      Machine.call_keeps_range hmodule hhosts hsig hargs
    have hcaller : LocalsInRange types s := by
      refine List.forall₂_map_left_iff.2 (List.forall₂_same.2 fun _ _ => ?_)
      exact Ty.contains_of_bounds?_eq_none rfl
    exact (hkeeps.of_ok hcaller hrun).2 v rfl
  refine ⟨hcall, fun name hname v s' hrun => ?_, fun m hpasses => ?_⟩
  · unfold Environment.invoke at hrun
    rw [henv, hname] at hrun
    exact hcall v s' hrun
  -- A moment is reached from the body of the callee, where the arguments are in range.
  · obtain ⟨k, f, inner, rfl, henters, hreaches⟩ := hpasses
    have hstart : Moment.InRange (programTypes settings p) ⟨id, k, f.body, inner⟩ :=
      henters.inRange hmodule hsig hargs
    obtain ⟨hnode, hlocals⟩ := hstart.of_reaches hmodule hhosts hreaches
    have hkeeps := Machine.keepsRange_at hmodule hhosts m.function m.clock hnode
    refine ⟨hlocals, fun v s' hrun => (hkeeps.of_ok hlocals hrun).1,
      fun e s' hrun => (hkeeps.of_error hlocals hrun).1, ?_, ?_⟩
    · intro ctx hctx e expected v s' c hrun
      have hwithin : c.Within _ := compile_within hctx e expected
      have hyields := Machine.keepsRange_at hmodule hhosts m.function m.clock hwithin.respects
      exact hwithin.contains v ((hyields.of_ok hlocals hrun).2 v rfl)
    · intro callee args' slot hcallee params' result' hsig' v s' hrun
      have hyields := (hkeeps.of_ok hlocals hrun).2 v rfl
      rw [hcallee] at hyields
      obtain ⟨params'', result'', hsig'', hresult⟩ := hyields
      -- The callee has one signature.
      have heq := hsig'.symm.trans hsig''
      cases heq
      exact hresult

/-- A function that counts on past the end of its type, and asks a host, and a function that
    compares what it gives back. -/
def wrapping : Program where
  imports := [⟨"sense", [], .i8⟩]
  functions := [
    { name := "step", params := [⟨"n", .u8⟩], result := .u8, bodySpan := .empty
      isExported := false, span := .empty
      body := [
        .varDecl .empty .letVar [⟨⟨.empty, "m"⟩, none, some (.call .empty ⟨.empty, "sense"⟩ [])⟩],
        .exprStmt .empty (.assign .empty .add ⟨.empty, "n"⟩ (.literal .empty (.int 10))),
        .returnStmt .empty (some (.name .empty "n"))] },
    { name := "main", params := [⟨"n", .u8⟩], result := .bool, bodySpan := .empty
      isExported := true, span := .empty
      body := [.returnStmt .empty (some (.binary .empty .lt
        (.call .empty ⟨.empty, "step"⟩ [.name .empty "n"]) (.name .empty "n")))] }]

/-- A host that always senses the same number. -/
def sensingHost : Machine.Host Unit := fun _ w => .ok (some (.i32 (-5))) w

/-- The sum wraps around in the byte that it is stored in, and every moment of the run has its
    values in range. -/
theorem wrapping_in_range : ∃ r, lowerProgram {} wrapping = .ok r ∧
    let env : Environment Unit := ⟨r.module, fun _ => some sensingHost⟩
    (∃ v s', env.invoke 4 "main" [.i32 250] ⟨[], none, 0, ()⟩ = .ok (some v) s' ∧
      v = .i32 1 ∧ Ty.bool.Contains v) ∧
    ∀ m, env.Passes 4 2 [.i32 250] ⟨[], none, 0, ()⟩ m →
      HoldsRanges env (programTypes {} wrapping) m := by
  have hok : (lowerProgram {} wrapping).toOption.isSome = true := by
    decide +kernel
  have hfacts : ((lowerProgram {} wrapping).toOption.all fun r =>
      decide (r.module.findFunction? "main" = some 2 ∧ r.module.imports.length = 1) &&
      match Environment.invoke (⟨r.module, fun _ => some sensingHost⟩ : Environment Unit) 4 "main"
        [.i32 250] ⟨[], none, 0, ()⟩ with
      | .ok v _ => v = some (.i32 1)
      | .error .. => false) = true := by
    decide +kernel
  cases hr : lowerProgram {} wrapping with
  | error e =>
    rw [hr] at hok
    cases hok
  | ok r =>
    rw [hr] at hfacts
    obtain ⟨hmodule, hruns⟩ := Bool.and_eq_true_iff.1 hfacts
    obtain ⟨hmain, himports⟩ := of_decide_eq_true hmodule
    refine ⟨r, rfl, ?_⟩
    dsimp only
    have hhosts : Environment.HostsInRange
        (⟨r.module, fun _ => some sensingHost⟩ : Environment Unit) (programTypes {} wrapping) := by
      intro id i host hi hbound params result hsig args w v w' hok
      cases hbound
      cases hok
      -- There is only one import, which yields a number of a byte.
      have hid : id = 0 := by
        unfold Code.Module.callee? at hi
        split at hi
        next hlt =>
          have hlt : id < r.module.imports.length := hlt
          omega
        next => simp at hi
      subst hid
      cases hsig
      exact (Ty.contains_i32 rfl).2 (by decide)
    have hargs : List.Forall₂ Ty.Contains [.u8] [.i32 250] :=
      .cons ((Ty.contains_i32 rfl).2 (by decide)) .nil
    have hsig : (programTypes {} wrapping).signature? 2 = some ([.u8], .bool) := rfl
    obtain ⟨-, hinvoke, hmoments⟩ :=
      lowerProgram_in_range hr rfl hhosts hsig hargs 4 ⟨[], none, 0, ()⟩
    refine ⟨?_, hmoments⟩
    cases hrun : Environment.invoke (⟨r.module, fun _ => some sensingHost⟩ : Environment Unit) 4
        "main" [.i32 250] ⟨[], none, 0, ()⟩ with
    | ok v s' =>
      rw [hrun] at hruns
      obtain rfl : v = some (.i32 1) := by simpa using hruns
      exact ⟨_, s', rfl, rfl, hinvoke "main" hmain _ s' hrun⟩
    | error e s' =>
      rw [hrun] at hruns
      cases hruns

end Weir.Lowering
