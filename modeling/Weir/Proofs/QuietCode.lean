import Weir.Proofs.ControlShapes
import Weir.Proofs.ProgramTyping

/-!
# Code of programs without reports

What cannot be compiled is reported, and a node that traps stands for it. Clean code has no such
nodes: it is what a program is lowered to if nothing is reported. It also asks for a value only
where there can be one.

## Key results

- `compile_isClean`, `compileCondition_isClean`, `compileDiscarded_isClean`: expressions compile to
  clean code, or a problem is reported
- `lower_isClean`, `lowerAll_isClean`: statements are lowered to clean code, or a problem is
  reported
- `lowerProgram_isClean`: in a program without reports there is only clean code, up to the trap at
  the end of a function with a result
-/

/-! ## Clean code -/

namespace Weir.Code

/-- Whether a node is a constant. -/
def Node.isConst : Node → Bool
  | .const _ => true
  | _ => false

mutual

/-- Whether nothing in a tree stands for missing code: there is no `unreachable` node, a value is
    returned only from functions that have a result, and the first choice of a selection is a
    constant. -/
def Node.isClean (result : Slot) : Node → Bool
  | .unreachable => false
  | .nop | .const _ | .localGet .. | .br _ | .ret => true
  | .retValue e => result != .none && e.isClean result
  | .block _ children => allClean result children
  | .loop _ body => body.isClean result
  | .ifThen _ c t => c.isClean result && t.isClean result
  | .ifElse _ c t e => c.isClean result && (t.isClean result && e.isClean result)
  | .select c t e =>
    t.isConst && (c.isClean result && (t.isClean result && e.isClean result))
  | .drop e | .localSet _ e | .localTee _ _ e | .unary _ _ e | .convert _ e | .brIf _ e
  | .brTable _ _ e => e.isClean result
  | .binary _ _ l r => l.isClean result && r.isClean result
  | .call _ args _ => allClean result args
termination_by structural n => n

/-- Whether all of the nodes are clean. -/
def allClean (result : Slot) : List Node → Bool
  | [] => true
  | n :: ns => n.isClean result && allClean result ns
termination_by structural ns => ns

end

variable {result : Slot}

theorem allClean_iff {ns : List Node} : allClean result ns ↔ ∀ n ∈ ns, n.isClean result := by
  induction ns with
  | nil => simp [allClean]
  | cons n ns ih => simp [allClean, ih]

theorem Node.isClean_block {label : Option Label} {ns : List Node} :
    (Node.block label ns).isClean result ↔ ∀ n ∈ ns, n.isClean result :=
  allClean_iff

end Weir.Code

namespace Weir.Lowering

open Weir.Code (Node Slot allClean)
open Weir.Source (Clause Declarator Expr Literal PointerWidth Span Stmt Ty)

variable {w : PointerWidth} {result : Slot}

/-! ## Reports -/

namespace Reported

variable {α β : Type}

/-- The property holds of the value unless something was reported. -/
def Unreported (r : Reported α) (P : α → Prop) : Prop := r.reports = [] → P r.value

variable {P Q : α → Prop} {R : β → Prop}

/-- What is returned without a report has the property itself. -/
theorem unreported_pure {a : α} (h : P a) : (pure a : Reported α).Unreported P :=
  fun _ => h

/-- Nothing has to be shown of what follows a report. -/
theorem unreported_report_bind {problem : Problem} {span : Span} {f : Unit → Reported β} :
    (report problem span >>= f).Unreported R :=
  fun h => by cases h

/-- A step after another one: nothing was reported in either of them. -/
theorem Unreported.bind {r : Reported α} {f : α → Reported β} (h : r.Unreported P)
    (hf : ∀ a, P a → (f a).Unreported R) : (r >>= f).Unreported R := by
  intro hquiet
  have hboth : r.reports ++ (f r.value).reports = [] := hquiet
  obtain ⟨hfirst, hsecond⟩ := List.append_eq_nil_iff.1 hboth
  exact hf r.value (h hfirst) hsecond

end Reported

open Reported (unreported_pure unreported_report_bind)

/-- What stands in for a value is always reported. -/
theorem poisoned_unreported {expected : Ty} {problem : Problem} {span : Span}
    {P : Compiled → Prop} : (poisoned w expected problem span).Unreported P :=
  unreported_report_bind

/-! ## Conversions -/

/-- Wrapping around to a small type traps nowhere. -/
private theorem normalize_isClean {n : Node} {t : Ty} (h : n.isClean result) :
    (normalize n t).isClean result := by
  cases t <;> simp [normalize, Node.isClean, h, Node.i32Const]

/-- Moving a value to another slot traps nowhere. -/
private theorem changeSlot_isClean {n : Node} (source target : Ty) (h : n.isClean result) :
    (changeSlot w n source target).isClean result := by
  unfold changeSlot
  repeat' split
  all_goals exact h

/-- Any value can be tested for truth. -/
private theorem truthTest_isClean {n : Node} {s : Slot} (hs : s ≠ .none) (h : n.isClean result) :
    (truthTest n s).isClean result := by
  cases s with
  | none => exact absurd rfl hs
  | i32 | i64 | f32 | f64 => simp [truthTest, Code.Value.zero?, Node.isClean, h]

/-- A conversion traps only where a value is made from none. -/
private theorem coerce_isClean {n : Node} {source target : Ty}
    (hvoid : source.isVoid → target.isVoid)
    (h : n.isClean result) : (coerce w n source target).isClean result := by
  have hchanged := changeSlot_isClean (w := w) (source.resolve w) (target.resolve w) h
  unfold coerce coerceResolved
  by_cases heq : source.resolve w = target.resolve w
  · rw [if_pos heq]
    exact h
  rw [if_neg heq, Ty.isVoid_resolve, Ty.isVoid_resolve]
  by_cases htarget : target.isVoid
  · rw [if_pos htarget]
    exact h
  -- A value of no type has been ruled out, as the target has values.
  have hsource : source.isVoid = false := by
    cases hs : source.isVoid with
    | true => exact absurd (hvoid hs) htarget
    | false => rfl
  rw [if_neg htarget, hsource, if_neg (by simp)]
  by_cases hbool : target.resolve w = .bool
  · rw [if_pos hbool]
    refine truthTest_isClean ?_ h
    rw [Ty.slot_resolve]
    exact Ty.slot_ne_none hsource
  · rw [if_neg hbool]
    dsimp only
    split
    · exact normalize_isClean hchanged
    · exact hchanged

/-- An implicit conversion is clean, or it is reported that there is no value. -/
private theorem convertImplicit_isClean {n : Node} {source target : Ty} {span : Span}
    (h : n.isClean result) :
    (convertImplicit w n source target span).Unreported (·.isClean result) := by
  unfold convertImplicit checkImplicit
  by_cases hvoid : source.isVoid && !target.isVoid
  · rw [if_pos hvoid]
    exact unreported_report_bind
  · rw [if_neg hvoid]
    -- What is left converts to a value only from one.
    have hto : source.isVoid → target.isVoid := by
      intro hs
      simpa [hs] using hvoid
    split
    · exact unreported_pure (coerce_isClean hto h)
    · exact unreported_report_bind
    · exact unreported_report_bind

/-- An explicit conversion is clean, or it is reported that there is no value. -/
private theorem convertExplicit_isClean {n : Node} {source target : Ty} {span : Span}
    (h : n.isClean result) :
    (convertExplicit w n source target span).Unreported (·.isClean result) := by
  unfold convertExplicit checkExplicit
  by_cases hvoid : source.isVoid && !target.isVoid
  · rw [if_pos hvoid]
    exact unreported_report_bind
  · rw [if_neg hvoid]
    have hto : source.isVoid → target.isVoid := by
      intro hs
      simpa [hs] using hvoid
    exact unreported_pure (coerce_isClean hto h)

/-! ## Operands -/

/-- An operand compiles to clean code for every type that is expected of it, or is reported. -/
def Operand.Clean (result : Slot) (e : Operand) : Prop :=
  ∀ expected, (e.compile expected).Unreported (·.node.isClean result)

section

variable {e left right : Operand} {expected : Ty} {span : Span}

private theorem Operand.Clean.condition (h : e.Clean result) :
    (e.condition w).Unreported (·.isClean result) :=
  (h .bool).bind fun _ hc => convertExplicit_isClean hc

/-- An operand stays clean if it is compiled again for another type. -/
private theorem Operand.Clean.retype (h : e.Clean result) {c : Compiled} {common : Ty}
    (hc : c.node.isClean result) : (e.retype c common).Unreported (·.node.isClean result) := by
  unfold Operand.retype
  split
  · exact h common
  · exact unreported_pure hc

/-- The short-circuit operators choose between conditions, which are clean. -/
private theorem compileLogical_isClean (isAnd : Bool) (hl : left.Clean result)
    (hr : right.Clean result) :
    (compileLogical w isAnd left right).Unreported (·.node.isClean result) := by
  refine hl.condition.bind fun l hl => hr.condition.bind fun r hr => unreported_pure ?_
  cases isAnd <;> simp [Node.isClean, hl, hr, Node.i32Const]

/-- An operator that runs both sides is reported where it has no code. -/
private theorem compileStrict_isClean {op : Source.BinaryOp} (hl : left.Clean result)
    (hr : right.Clean result) :
    (compileStrict w op left right expected span).Unreported (·.node.isClean result) := by
  unfold compileStrict
  refine (hl _).bind fun l hlc => (hr _).bind fun r hrc => ?_
  dsimp only
  by_cases hvoid : (unify w l.ty r.ty).isVoid
  · rw [if_pos hvoid]
    exact poisoned_unreported
  rw [if_neg hvoid]
  -- Literals are compiled once more for the type both sides meet at.
  refine (hl.retype hlc).bind fun l hlc => (hr.retype hrc).bind fun r hrc => ?_
  split
  · exact poisoned_unreported
  next code _ =>
    refine (convertImplicit_isClean hlc).bind fun ln hln => ?_
    refine (convertImplicit_isClean hrc).bind fun rn hrn => unreported_pure ?_
    have hnode (s : Slot) : (Node.binary code s ln rn).isClean result := by
      simp [Node.isClean, hln, hrn]
    split
    · exact hnode _
    · exact normalize_isClean (hnode _)

/-- A binary operator on clean operands is clean, or it is reported. -/
private theorem compileBinary_isClean {op : Source.BinaryOp} (hl : left.Clean result)
    (hr : right.Clean result) :
    (compileBinary w op left right expected span).Unreported (·.node.isClean result) := by
  cases op with
  | and => exact compileLogical_isClean true hl hr
  | or => exact compileLogical_isClean false hl hr
  | _ => exact compileStrict_isClean hl hr

/-- A literal is a constant of some slot. -/
private theorem compileLiteral_isClean {literal : Literal} :
    (compileLiteral w literal expected).node.isClean result := by
  unfold compileLiteral
  dsimp only
  repeat' split
  all_goals rfl

/-- A unary operator on a clean operand is clean, or it is reported. -/
private theorem compileUnary_isClean {op : Source.UnaryOp} {literal? : Option Literal}
    (h : e.Clean result) :
    (compileUnary w op e literal? expected span).Unreported (·.node.isClean result) := by
  cases op with
  | plus => exact h expected
  | not => exact h.condition.bind fun test htest => unreported_pure htest
  | bitNot =>
    refine (h expected).bind fun c hc => ?_
    dsimp only
    split
    · refine unreported_pure (normalize_isClean ?_)
      simp only [Node.isClean, Bool.and_eq_true]
      refine ⟨hc, ?_⟩
      split <;> rfl
    · exact poisoned_unreported
  | minus =>
    -- The sign of anything that is no literal multiplies or negates.
    have hsign : (compileUnary w .minus e none expected span).Unreported
        (·.node.isClean result) := by
      refine (h expected).bind fun c hc => ?_
      dsimp only
      split
      · exact unreported_pure hc
      split
      · refine unreported_pure (normalize_isClean ?_)
        simp only [Node.isClean, Bool.and_eq_true]
        refine ⟨?_, hc⟩
        split <;> rfl
      · exact poisoned_unreported
    -- A minus sign in front of a number belongs to the literal.
    cases literal? with
    | none => exact hsign
    | some literal =>
      cases literal with
      | int value => exact unreported_pure compileLiteral_isClean
      | float value => exact unreported_pure compileLiteral_isClean
      | boolean value => exact hsign

end

/-! ## Expressions -/

/-- An assignment has a variable and a clean value for it, or it is reported. -/
private theorem compileUpdate_isClean {ctx : Context} {op : Source.AssignOp} {target : Source.Ident}
    {value : Operand} {span : Span} (hvalue : value.Clean result) :
    (compileUpdate ctx op target value span).Unreported
      fun update => ∃ v n, update = some (v, n) ∧ n.isClean result := by
  unfold compileUpdate
  cases hfind : ctx.bindings.find? target.name with
  | none => exact unreported_report_bind
  | some v =>
    dsimp only
    have hassign : ∀ c : Compiled, c.node.isClean result → (do
        let node ← convertImplicit ctx.width c.node c.ty v.ty value.span
        pure (some (v, node)) : Reported (Option (Variable × Node))).Unreported
        fun update => ∃ v n, update = some (v, n) ∧ n.isClean result :=
      fun c hc => (convertImplicit_isClean hc).bind fun n hn => unreported_pure ⟨v, n, rfl, hn⟩
    split
    -- An assignment to a constant is reported, and there is nothing to show then.
    · exact unreported_report_bind
    · split
      · exact (hvalue v.ty).bind hassign
      · refine Reported.Unreported.bind (compileBinary_isClean (fun _ => ?_) hvalue) hassign
        have hread : (readVariable ctx.width v).node.isClean result := rfl
        exact unreported_pure hread

mutual

/-- An expression compiles to clean code, or a problem is reported. -/
theorem compile_isClean (result : Slot) (ctx : Context) : (e : Expr) → (expected : Ty) →
    (compile ctx e expected).Unreported (·.node.isClean result)
  | .literal _ value, expected => by
    simp only [compile]
    exact unreported_pure compileLiteral_isClean
  | .paren _ inner, expected => by
    simp only [compile]
    exact compile_isClean result ctx inner expected
  | .name span name, expected => by
    simp only [compile]
    split
    · exact unreported_pure rfl
    · exact poisoned_unreported
  | .unary span op operand, expected => by
    simp only [compile]
    exact compileUnary_isClean fun t => compile_isClean result ctx operand t
  | .binary span op left right, expected => by
    simp only [compile]
    exact compileBinary_isClean (fun t => compile_isClean result ctx left t)
      fun t => compile_isClean result ctx right t
  | .assign span op target value, expected => by
    simp only [compile]
    refine (compileUpdate_isClean fun t => compile_isClean result ctx value t).bind ?_
    rintro update ⟨v, n, rfl, hn⟩
    exact unreported_pure hn
  | .call span callee args, expected => by
    simp only [compile]
    split
    next => exact poisoned_unreported
    next s _ =>
      split
      next => exact poisoned_unreported
      next =>
        exact (compileArgs_allClean result ctx args s.params).bind fun ns hns => unreported_pure hns
  | .cast _ operand t, expected => by
    simp only [compile]
    refine (compile_isClean result ctx operand t).bind fun c hc => ?_
    exact (convertExplicit_isClean hc).bind fun n hn => unreported_pure hn
termination_by structural e => e

/-- Arguments compile to clean code, or a problem is reported. -/
private theorem compileArgs_allClean (result : Slot) (ctx : Context) : (args : List Expr) →
    (params : List Ty) → (compileArgs ctx args params).Unreported (allClean result ·)
  | [], _ => by
    simp only [compileArgs]
    exact unreported_pure rfl
  | _ :: _, [] => by
    simp only [compileArgs]
    exact unreported_pure rfl
  | arg :: args, t :: ts => by
    simp only [compileArgs]
    refine (compile_isClean result ctx arg t).bind fun c hc => ?_
    refine (convertImplicit_isClean hc).bind fun n hn => ?_
    refine (compileArgs_allClean result ctx args ts).bind fun ns hns => unreported_pure ?_
    simp [allClean, hn, hns]
termination_by structural args => args

end

variable (result) (ctx : Context)

/-- A condition compiles to clean code, or is reported. -/
theorem compileCondition_isClean (e : Expr) :
    (compileCondition ctx e).Unreported (·.isClean result) :=
  Operand.Clean.condition fun t => compile_isClean result ctx e t

/-- An expression is clean whether or not there is a value to drop. -/
private theorem compileDropped_isClean (e : Expr) :
    (compileDropped ctx e).Unreported (·.isClean result) := by
  refine (compile_isClean result ctx e .void).bind fun c hc => unreported_pure ?_
  split <;> exact hc

/-- An expression statement compiles to clean code, or is reported. -/
theorem compileDiscarded_isClean :
    (e : Expr) → (compileDiscarded ctx e).Unreported (·.isClean result)
  | .paren _ inner => by
    simp only [compileDiscarded]
    exact compileDiscarded_isClean inner
  | .assign span op target value => by
    simp only [compileDiscarded]
    refine (compileUpdate_isClean fun t => compile_isClean result ctx value t).bind ?_
    rintro update ⟨v, n, rfl, hn⟩
    exact unreported_pure hn
  | .literal .. | .name .. | .unary .. | .binary .. | .call .. | .cast .. => by
    simp only [compileDiscarded]
    exact compileDropped_isClean result ctx _

/-! ## Parts of statements -/

/-- A returned value is clean, or it is reported that it does not convert. -/
private theorem compileReturned_isClean (e : Expr) (t : Ty) :
    (compileReturned ctx e t).Unreported (·.isClean result) :=
  (compile_isClean result ctx e t).bind fun _ hc => convertImplicit_isClean hc

/-- A discriminant is clean, or it is reported that there is none. -/
private theorem compileDiscriminant_isClean (e : Expr) :
    (compileDiscriminant ctx e).Unreported (·.1.isClean result) := by
  refine (compile_isClean result ctx e .void).bind fun c hc => ?_
  exact (convertExplicit_isClean hc).bind fun n hn => unreported_pure hn

private theorem compileGuard_isClean (compared : Ty) (e : Expr) :
    (compileGuard ctx compared e).Unreported (·.isClean result) :=
  (compile_isClean result ctx e compared).bind fun _ hc => convertExplicit_isClean hc

/-- A declaration without type or initial value is reported, any other starts with clean code if it
    starts with any. -/
private theorem compileInitial_isClean (d : Declarator) (declared : Option Ty) :
    (compileInitial ctx d declared).Unreported fun r => ∀ n ∈ r.1, n.isClean result := by
  unfold compileInitial
  split
  next e t _ =>
    refine (compile_isClean result ctx e t).bind fun c hc => ?_
    refine (convertImplicit_isClean hc).bind fun n hn => unreported_pure ?_
    exact fun m hm => by cases hm; exact hn
  next e _ =>
    refine (compile_isClean result ctx e .void).bind fun c hc => ?_
    split
    · refine (convertExplicit_isClean hc).bind fun n hn => unreported_pure ?_
      exact fun m hm => by cases hm; exact hn
    · exact unreported_pure fun m hm => by cases hm; exact hc
  next => exact unreported_pure fun m hm => by cases hm
  next => exact unreported_report_bind

/-- An expression that may be missing is clean, or it is reported. -/
private theorem isClean_of_mapM {compiled : Expr → Reported Node}
    (h : ∀ e, (compiled e).Unreported (·.isClean result)) (o : Option Expr) :
    (o.mapM compiled).Unreported fun o => ∀ n ∈ o, n.isClean result := by
  cases o with
  | none => exact unreported_pure fun n hn => by cases hn
  | some e => exact (h e).bind fun n hn => unreported_pure fun m hm => by cases hm; exact hn

/-! ## Statements -/

variable {result} {fc : FunctionContext} {st st' : State}

/-- Binding a variable only adds to the reports. -/
private theorem bindVariable_advances {name : String} {v : Variable} {span : Span} {u : Unit}
    (h : Lower.bindVariable name v span st = .ok u st') : st.reports <+: st'.reports := by
  obtain ⟨ds, rfl⟩ := Lower.bindVariable_eq_ok h
  exact List.prefix_append _ _

/-- A variable is declared with what its initial value compiles to, and nothing is reported that was
    not reported then. -/
theorem compileInitial_reports {isConst : Bool} {d : Declarator} {ns : List Node}
    (h : lowerDeclarator fc isConst d st = .ok ns st') (hquiet : st'.reports = st.reports) :
    (compileInitial (fc.context st) d (declaredType? d)).reports = [] := by
  -- What is declared after the report about the type, if there is one.
  have hdeclare : ∀ st₀ : State, st.reports <+: st₀.reports → st₀.bindings = st.bindings →
      declareVariable fc isConst d st₀ = .ok ns st' →
      (compileInitial (fc.context st) d (declaredType? d)).reports = [] := by
    intro st₀ hst₀ hbindings hrun
    obtain ⟨r, st₁, hcompile, hrun⟩ := Lower.bind_eq_ok hrun
    obtain ⟨index, st₂, hindex, hrun⟩ := Lower.bind_eq_ok hrun
    obtain ⟨u, st₃, hbind, hrun⟩ := Lower.bind_eq_ok hrun
    -- The initial nodes are chosen without touching the state.
    have hst₃ : st' = st₃ := by
      cases hinitial : r.1 <;> cases hzero : Code.Value.zero? (r.2.slot fc.settings.width) <;>
        simp only [hinitial, hzero] at hrun <;> cases hrun <;> rfl
    have hst₂ : st₂.reports <+: st'.reports := hst₃ ▸ bindVariable_advances hbind
    cases hcompile
    cases hindex
    unfold FunctionContext.context
    rw [← hbindings]
    -- The reports only grow and end as they began, so the value has added none.
    have hreported := eq_of_prefix_of_prefix (hst₀.trans (List.prefix_append _ _)) hst₂ hquiet
    obtain ⟨more, hmore⟩ := hst₀
    have hlength := congrArg List.length hreported
    rw [← hmore] at hlength
    simp only [List.length_append] at hlength
    exact List.eq_nil_of_length_eq_zero (by omega)
  rw [lowerDeclarator_eq] at h
  split at h
  · obtain ⟨u, st₁, hreport, h⟩ := Lower.bind_eq_ok h
    cases hreport
    exact hdeclare (st.noting [⟨.voidValue, d.ident.span⟩]) (List.prefix_append _ _) rfl h
  · exact hdeclare st List.prefix_rfl rfl h

/-- The nodes of a declarator are clean, be it a given value or a zero. -/
private theorem lowerDeclarator_isClean {isConst : Bool} {d : Declarator} {ns : List Node}
    (h : lowerDeclarator fc isConst d st = .ok ns st') (hquiet : st'.reports = st.reports) :
    ∀ n ∈ ns, n.isClean result := by
  have hclean := compileInitial_isClean result (fc.context st) d (declaredType? d)
    (compileInitial_reports h hquiet)
  obtain ⟨rfl, -⟩ := lowerDeclarator_eq_ok h
  intro n hn
  unfold initialNodes at hn
  split at hn
  next node hnode =>
    obtain rfl := List.mem_singleton.1 hn
    exact hclean node hnode
  next =>
    obtain rfl := List.mem_singleton.1 hn
    rfl
  next => cases hn

/-- Declarations without reports emit clean nodes only. -/
private theorem lowerDeclarators_isClean {isConst : Bool} {ds : List Declarator}
    {ns : List Node} (h : lowerDeclarators fc isConst ds st = .ok ns st')
    (hquiet : st'.reports = st.reports) : ∀ n ∈ ns, n.isClean result := by
  induction ds generalizing st ns with
  | nil =>
    obtain ⟨rfl, -⟩ := lowerDeclarators_nil h
    simp
  | cons d ds ih =>
    obtain ⟨first, st₁, rest, hfirst, hreports, hrest, hrestQuiet, rfl⟩ :=
      lowerDeclarators_cons_quiet h hquiet
    -- The first declarator has reported nothing either.
    have hclean : ∀ n ∈ first, n.isClean result := lowerDeclarator_isClean hfirst hreports
    exact List.forall_mem_append.2 ⟨hclean, ih hrest hrestQuiet⟩

/-! ### Statements with statements in them -/

/-- Control around clean code is clean. -/
private theorem compositional_isClean : Compositional (fun n => n.isClean result) where
  nop := rfl
  const _ := rfl
  br _ := rfl
  block _ _ h := Node.isClean_block.2 h
  loop _ _ h := h
  ifThen _ _ _ hc ht := Bool.and_eq_true_iff.2 ⟨hc, ht⟩
  brIf _ _ h := h
  brTable _ _ _ h := h
  compare _ _ _ h := h
  select _ _ _ hc he := by simp [Node.isClean, Node.isConst, hc, he]

/-- The clauses of a switch are clean if their guards and their bodies are. -/
private def CleanCases (result : Slot) (cases : List Case) : Prop :=
  ∀ c ∈ cases, (∀ g ∈ c.guard, g.isClean result) ∧ ∀ n ∈ c.body, n.isClean result

mutual

/-- A statement is lowered to clean code, or a problem is reported. -/
theorem lower_isClean : (s : Stmt) → ∀ {st st' : State} {n : Node},
    lower fc s st = .ok n st' → st'.reports = st.reports →
    n.isClean (fc.result.slot fc.settings.width)
  | .exprStmt _ e, st, st', n, h, hquiet => by
    obtain ⟨hreports, rfl, -⟩ := lower_exprStmt_quiet h hquiet
    exact compileDiscarded_isClean _ _ e hreports
  | .varDecl _ kind ds, st, st', n, h, hquiet => by
    obtain ⟨sets, hsets, rfl⟩ := lower_varDecl h
    exact compositional_isClean.sequence (lowerDeclarators_isClean hsets hquiet)
  | .returnStmt _ value?, st, st', n, h, hquiet => by
    rcases lower_return_quiet h hquiet with ⟨e, -, hvoid, hreports, rfl, -⟩ | ⟨-, -, rfl, -⟩
    · have hslot := Ty.slot_ne_none (w := fc.settings.width) hvoid
      have hvalue := compileReturned_isClean (fc.result.slot fc.settings.width) (fc.context st) e
        fc.result hreports
      simp [Node.isClean, hslot, hvalue]
    · rfl
  | .ifStmt _ c t e, st, st', n, h, hquiet => by
    obtain ⟨htest, tn, st₁, en, ht, hthen, he, helse, rfl⟩ := lower_if_quiet h hquiet
    have hc := compileCondition_isClean (fc.result.slot fc.settings.width) _ c htest
    have ht := lower_isClean t ht hthen
    have he := lowerOption_isClean e he helse
    cases en with
    | none => simp [Node.isClean, hc, ht]
    | some en => simp [Node.isClean, hc, ht, he en rfl]
  | .forStmt _ init c u body, st, st', n, h, hquiet => by
    obtain ⟨i, st₁, bn, st₂, hinit, hinitQuiet, hbody, hbodyQuiet, -, hc, hu, rfl, -⟩ :=
      lower_for_quiet h hquiet
    -- A loop without a body does nothing in its place.
    have hbody := compositional_isClean.getD (lowerOption_isClean body hbody hbodyQuiet)
    refine compositional_isClean.forNode (lowerOption_isClean init hinit hinitQuiet) ?_ ?_ hbody
    · exact isClean_of_mapM _ (compileCondition_isClean _ _) c hc
    · exact isClean_of_mapM _ (compileDiscarded_isClean _ _) u hu
  | .whileStmt _ c body, st, st', n, h, hquiet => by
    obtain ⟨bn, st₁, hbody, hreports, htest, rfl, -⟩ := lower_while_quiet h hquiet
    have hc := compileCondition_isClean (fc.result.slot fc.settings.width) _ c htest
    have hbody := compositional_isClean.getD (lowerOption_isClean body hbody hreports)
    exact compositional_isClean.whileNode hc hbody
  | .doWhile _ body c, st, st', n, h, hquiet => by
    obtain ⟨bn, st₁, hbody, hreports, htest, rfl, -⟩ := lower_doWhile_quiet h hquiet
    have hc := compileCondition_isClean (fc.result.slot fc.settings.width) _ c htest
    exact compositional_isClean.doWhileNode hc (lower_isClean body hbody hreports)
  | .block _ ss, st, st', n, h, hquiet => by
    obtain ⟨nodes, st₁, hnodes, rfl, rfl⟩ := lower_block h
    exact Node.isClean_block.2 (lowerAll_isClean ss hnodes hquiet)
  | .breakStmt _, st, st', n, h, hquiet => by
    obtain ⟨label, -, rfl, -⟩ := lower_break h
    rfl
  | .continueStmt _, st, st', n, h, hquiet => by
    obtain ⟨label, -, rfl, -⟩ := lower_continue h
    rfl
  | .switchStmt _ d [], st, st', n, h, hquiet => by
    obtain ⟨hreports, rfl, -⟩ := lower_switch_nil_quiet h hquiet
    exact compileDropped_isClean _ _ d hreports
  | .switchStmt _ d (clause :: clauses), st, st', n, h, hquiet => by
    obtain ⟨hd, cases, st₁, hclauses, hreports, hdispatch, -⟩ :=
      lower_switch_quiet (by simp) h hquiet
    have hvalue := compileDiscriminant_isClean (fc.result.slot fc.settings.width) _ d hd
    have hcases := lowerClauses_isClean (clause :: clauses) hclauses hreports
    exact compositional_isClean.dispatchNode hvalue (fun c hc => (hcases c hc).1)
      (fun c hc => (hcases c hc).2) hdispatch
  | .empty _, st, st', n, h, hquiet => by
    obtain ⟨rfl, -⟩ := lower_empty h
    rfl
termination_by structural s => s

private theorem lowerOption_isClean : (s : Option Stmt) → ∀ {st st' : State} {o : Option Node},
    lowerOption fc s st = .ok o st' → st'.reports = st.reports →
    ∀ n ∈ o, n.isClean (fc.result.slot fc.settings.width)
  | none, st, st', o, h, hquiet => by
    obtain ⟨rfl, -⟩ := lowerOption_none h
    exact fun n hn => by cases hn
  | some s, st, st', o, h, hquiet => by
    obtain ⟨node, hnode, rfl⟩ := lowerOption_some h
    have hclean := lower_isClean s hnode hquiet
    exact fun n hn => by cases hn; exact hclean
termination_by structural s => s

/-- Every statement of a list is clean, as none is reported. -/
theorem lowerAll_isClean : (ss : List Stmt) → ∀ {st st' : State} {ns : List Node},
    lowerAll fc ss st = .ok ns st' → st'.reports = st.reports →
    ∀ n ∈ ns, n.isClean (fc.result.slot fc.settings.width)
  | [], st, st', ns, h, hquiet => by
    obtain ⟨rfl, -⟩ := lowerAll_nil h
    simp
  | s :: ss, st, st', ns, h, hquiet => by
    obtain ⟨node, st₁, nodes, hnode, hfirst, hnodes, hrest, rfl⟩ := lowerAll_cons_quiet h hquiet
    exact List.forall_mem_cons.2 ⟨lower_isClean s hnode hfirst, lowerAll_isClean ss hnodes hrest⟩
termination_by structural ss => ss

/-- Clauses have clean guards and clean bodies. -/
private theorem lowerClauses_isClean {scope : LabelScope} {compared : Ty} :
    (clauses : List Clause) →
    ∀ {ordinal : Nat} {hasDefault : Bool} {st st' : State} {cases : List Case},
    lowerClauses fc scope compared ordinal hasDefault clauses st = .ok cases st' →
    st'.reports = st.reports → CleanCases (fc.result.slot fc.settings.width) cases
  | [], ordinal, hasDefault, st, st', cases, h, hquiet => by
    obtain ⟨rfl, -⟩ := lowerClauses_nil h
    exact fun c hc => by cases hc
  | .mk test body span :: clauses, ordinal, hasDefault, st, st', cases, h, hquiet => by
    obtain ⟨htest, label, nodes, st₁, rest, hbody, hbodyQuiet, hrest, hrestQuiet, rfl⟩ :=
      lowerClauses_cons_quiet h hquiet
    have hnodes := lowerAll_isClean body hbody hbodyQuiet
    have hclauses := lowerClauses_isClean clauses hrest hrestQuiet
    refine List.forall_mem_cons.2 ⟨⟨?_, hnodes⟩, hclauses⟩
    intro g hg
    -- The guard of a clause is what its test compiles to.
    obtain ⟨e, he, rfl⟩ := Option.map_eq_some_iff.1 hg
    exact compileGuard_isClean _ _ compared e (htest e he)
termination_by structural clauses => clauses

end

/-! ## Programs -/

/-- Where nothing is reported in a program, the body of every function is clean code, followed by a
    trap only if the function has a result. -/
theorem lowerProgram_isClean {settings : Settings} {p : Source.Program} {r : Lowered}
    (h : lowerProgram settings p = .ok r) (hquiet : r.reports = []) {g : Code.Function}
    (hg : g ∈ r.module.functions) :
    ∃ nodes, (∀ n ∈ nodes, n.isClean g.result) ∧ (g.body = .block none nodes ∨
      (g.result ≠ .none ∧ g.body = .block none (nodes ++ [.unreachable]))) := by
  obtain ⟨f, ds, -, hreports, hf⟩ := exists_lowerFunction h hg
  rw [hquiet] at hreports
  obtain rfl := List.eq_nil_iff_forall_not_mem.2 fun d hd => List.not_mem_nil (hreports d hd)
  obtain ⟨u, st, nodes, st', -, hnodes, hreports, rfl⟩ := lowerFunction_quiet hf
  refine ⟨nodes, lowerAll_isClean f.body hnodes hreports, ?_⟩
  rcases bodyNode_cases f.result nodes with ⟨hbody, -⟩ | ⟨hvoid, hbody⟩
  · exact .inl hbody
  · exact .inr ⟨Ty.slot_ne_none hvoid, hbody⟩

end Weir.Lowering
