import Weir.Proofs.ReportCounts

/-!
# Reports that are made twice

An expression is compiled with each problem reported once, if its parts stand in different places.
There are two exceptions. A literal operand is compiled again for the type in which the operands
meet, and a minus sign in front of a truth value is reported again. A compound assignment to a
variable without a value reports that there is no value, and so does what uses the assignment.

## Key results

- `literal_reports`: what is reported of literals
- `compile_once`: what is reported of an expression is reported once, with these exceptions
-/

namespace Weir.Source

namespace Ty

variable {w : PointerWidth} {t : Ty}

@[simp] theorem isNumeric_resolve (t : Ty) : (t.resolve w).isNumeric = t.isNumeric := by
  cases w <;> cases t <;> rfl

theorem isVoid_of_isNumeric (h : t.isNumeric) : t.isVoid = false := by
  cases t <;> first | rfl | cases h

/-- The only type of values that are not numbers is that of truth values. -/
theorem eq_bool_of_not_isNumeric (hvoid : t.isVoid = false) (h : t.isNumeric = false) :
    t = .bool := by
  revert hvoid h
  cases t <;> decide

end Ty

/-- Whether an expression is a truth value, in parentheses or under signs. -/
def Expr.isTruth : Expr → Bool
  | .literal _ (.boolean _) => true
  | .paren _ e | .unary _ .minus e | .unary _ .plus e => e.isTruth
  | _ => false

mutual

/-- Where the parts of an expression stand, with the targets of assignments and the names of
    callees. -/
def Expr.spans : Expr → List Span
  | .literal span _ | .name span _ => [span]
  | .paren span e | .unary span _ e | .cast span e _ => span :: e.spans
  | .binary span _ left right => span :: (left.spans ++ right.spans)
  | .assign span _ target value => span :: target.span :: value.spans
  | .call span callee args => span :: callee.span :: Expr.spansAll args
termination_by structural e => e

/-- Where the parts of expressions stand. -/
def Expr.spansAll : List Expr → List Span
  | [] => []
  | e :: es => e.spans ++ Expr.spansAll es
termination_by structural es => es

end

end Weir.Source

namespace Weir.Lowering

open Weir.Code (Node)
open Weir.Source (AssignOp BinaryOp Expr Ident Literal PointerWidth Span Ty UnaryOp)
open Reported (report eq_of_times_report)

/-! ## Literals -/

/-- The reports of minus signs in front of a truth value. -/
def negatedTruths : Expr → List Diagnostic
  | .paren _ e | .unary _ .plus e => negatedTruths e
  | .unary span .minus e =>
    (if e.isTruth then [⟨.invalidOperand UnaryOp.minus.symbol .bool, span⟩] else []) ++
      negatedTruths e
  | _ => []

section

variable {d : Diagnostic} {w : PointerWidth} {ctx : Context} {e : Expr} {t : Ty}

/-- Only minus signs in front of a truth value are reported of a literal. -/
structure LiteralReports (d : Diagnostic) (e : Expr) (r : Reported Compiled) : Prop where
  isVoid : r.value.ty.isVoid = false
  isNumeric : e.isTruth = false → r.value.ty.isNumeric
  times : 0 < r.times d → d ∈ negatedTruths e

/-- A literal that is no truth value compiles to a number. -/
private theorem isNumeric_compileLiteral {l : Literal} (h : ∀ b, l ≠ .boolean b) :
    (compileLiteral w l t).ty.isNumeric := by
  cases l with
  | boolean b => exact absurd rfl (h b)
  | float x =>
    simp only [compileLiteral]
    split <;> rfl
  | int b =>
    obtain ⟨s, heq, hfits, hresolved, -⟩ := compileLiteral_int w b t
    rw [heq]
    exact isNumeric_of_literalFits hfits hresolved

/-- Writing a literal down reports nothing. -/
private theorem LiteralReports.literal (span : Span) (l : Literal) :
    LiteralReports d (.literal span l) (pure (compileLiteral w l t)) := by
  have hnumeric (h : ∀ b, l ≠ .boolean b) := isNumeric_compileLiteral (w := w) (t := t) h
  refine ⟨?_, fun htruth => hnumeric ?_, fun h => by simp at h⟩
  · cases l with
    | boolean b => rfl
    | _ => exact Ty.isVoid_of_isNumeric (hnumeric (by simp))
  · rintro b rfl
    cases htruth

/-- What comes behind reports that are known decides the rest. -/
private theorem LiteralReports.bind {r : Reported Compiled} {f : Compiled → Reported Compiled}
    (hr : 0 < r.times d → d ∈ negatedTruths e) (hf : LiteralReports d e (f r.value)) :
    LiteralReports d e (r >>= f) := by
  refine ⟨hf.isVoid, hf.isNumeric, fun hpos => ?_⟩
  rw [Reported.times_bind] at hpos
  by_cases hfirst : 0 < r.times d
  · exact hr hfirst
  · exact hf.times (by omega)

/-- A minus sign is applied to a number, or in front of a truth value it is reported. -/
private theorem LiteralReports.sign {operand : Operand} {span : Span}
    (h : LiteralReports d e (operand.compile t)) :
    LiteralReports d (.unary span .minus e) (compileUnary w .minus operand none t span) := by
  have hvoid : ((operand.compile t).value.ty.resolve w).isVoid = false := by
    rw [Ty.isVoid_resolve]
    exact h.isVoid
  simp only [compileUnary]
  refine .bind (fun hpos => List.mem_append_right _ (h.times hpos)) ?_
  split
  next hfloat => exact ⟨hvoid, fun _ => by simp [Ty.isNumeric, hfloat], fun hpos => by simp at hpos⟩
  next hfloat =>
    split
    next hint => exact ⟨hvoid, fun _ => by simp [Ty.isNumeric, hint], fun hpos => by simp at hpos⟩
    next hint =>
      -- What can neither be negated nor multiplied is a truth value.
      have hbool := Ty.eq_bool_of_not_isNumeric hvoid (by simp [Ty.isNumeric, hfloat, hint])
      -- Literals that are no truth values are numbers.
      have htruth : e.isTruth := by
        by_contra hfalse
        have hnumeric := h.isNumeric (by simpa using hfalse)
        rw [← Ty.isNumeric_resolve (w := w), hbool] at hnumeric
        cases hnumeric
      refine ⟨isVoid_fallbackType w t, fun hfalse => ?_, fun hpos => ?_⟩
      · exact absurd (hfalse.symm.trans htruth) (by decide)
      · rw [poisoned_times, hbool] at hpos
        rw [eq_of_times_report hpos]
        refine List.mem_append_left _ ?_
        rw [if_pos htruth]
        exact List.mem_singleton_self _

/-- A sign is taken into a number, and any other operand is negated. -/
private theorem LiteralReports.minus {operand : Operand} {span : Span} {literal? : Option Literal}
    (h : LiteralReports d e (operand.compile t)) :
    LiteralReports d (.unary span .minus e) (compileUnary w .minus operand literal? t span) := by
  -- The literal with the sign in it is a literal of the same kind.
  have hfolded {l : Literal} (hl : ∀ b, l ≠ .boolean b) :
      LiteralReports d (.unary span .minus e) (pure (compileLiteral w l t)) := by
    have hnumeric := isNumeric_compileLiteral (w := w) (t := t) hl
    exact ⟨Ty.isVoid_of_isNumeric hnumeric, fun _ => hnumeric, fun h => by simp at h⟩
  match literal? with
  | some (.int value) => exact hfolded (l := .int (-value)) (by simp)
  | some (.float value) => exact hfolded (l := .float value.neg) (by simp)
  | some (.boolean _) => exact h.sign
  | none => exact h.sign

/-- What is reported of literals. The induction is on the literal. -/
theorem literal_reports (d : Diagnostic) (ctx : Context) (t : Ty) : (e : Expr) → isLiteral e →
    LiteralReports d e (compile ctx e t)
  | .literal span l, _ => by
    simp only [compile]
    exact .literal span l
  | .paren _ e, h => by
    have ih := literal_reports d ctx t e h
    simp only [compile]
    exact ⟨ih.isVoid, ih.isNumeric, ih.times⟩
  | .unary _ .plus e, h => by
    have ih := literal_reports d ctx t e h
    simp only [compile, compileUnary]
    exact ⟨ih.isVoid, ih.isNumeric, ih.times⟩
  | .unary _ .minus e, h => by
    simp only [compile]
    exact .minus (literal_reports d ctx t e h)
termination_by structural e => e

end

/-! ## Expressions -/

/-- The reports that may be made twice at a compound assignment: those of minus signs in front of a
    truth value that is assigned, and that a variable without a value is assigned to. -/
def compoundRepeats (vs : Variables) (span : Span) (op : AssignOp) (target : Ident) (value : Expr) :
    List Diagnostic :=
  match op.operator?, vs.find? target.name with
  | some _, some v => negatedTruths value ++ if v.ty.isVoid then [⟨.voidValue, span⟩] else []
  | _, _ => []

mutual

/-- The reports that may be made twice: those of minus signs in front of a truth value that is an
    operand of an operator that is not logical, and those of compound assignments. -/
def repeatable (vs : Variables) : Expr → List Diagnostic
  | .literal .. | .name .. => []
  | .paren _ e | .unary _ _ e | .cast _ e _ => repeatable vs e
  | .binary _ op left right =>
    (if op.isLogical then [] else negatedTruths left ++ negatedTruths right) ++
      (repeatable vs left ++ repeatable vs right)
  | .assign span op target value => compoundRepeats vs span op target value ++ repeatable vs value
  | .call _ _ args => repeatableAll vs args
termination_by structural e => e

/-- The reports of some expressions that may be made twice. -/
def repeatableAll (vs : Variables) : List Expr → List Diagnostic
  | [] => []
  | e :: es => repeatable vs e ++ repeatableAll vs es
termination_by structural es => es

end

section

variable {d : Diagnostic} {ctx : Context}

/-- A literal that negates no truth value can be compiled again in silence. -/
private theorem silentAsLiteral_of_not_mem {e : Expr} (h : d ∉ negatedTruths e) :
    (Operand.ofExpr ctx e).SilentAsLiteral d := by
  intro hliteral t
  by_contra hpos
  exact h ((literal_reports d ctx t e hliteral).times (Nat.pos_of_ne_zero hpos))

section

variable {span : Span} {op : AssignOp} {target : Ident} {value : Expr} {t : Ty}

/-- An assignment reports what updating its variable reports. -/
private theorem compileAssign_times : (compile ctx (.assign span op target value) t).times d =
    (compileUpdate ctx op target (.ofExpr ctx value) span).times d := by
  simp only [compile, Reported.times_bind, Operand.ofExpr]
  split <;> rw [Reported.times_pure, Nat.add_zero]

/-- The value of an assignment has the type of its variable. -/
private theorem compileAssign_ty {v : Variable} {node : Node}
    (h : (compileUpdate ctx op target (.ofExpr ctx value) span).value = some (v, node)) :
    (compile ctx (.assign span op target value) t).value.ty = v.ty := by
  rw [Operand.ofExpr] at h
  simp only [compile, Reported.value_bind, h, Reported.value_pure]

/-- An assignment reports once what its value reports, unless a compound operator compiles the value
    again. -/
private theorem compileAssign_once (hvalue : Once d value.spans value.span (compile ctx value))
    (htarget : target.span ∉ value.spans) (houter : span ∉ target.span :: value.spans)
    (hd : d ∉ compoundRepeats ctx.bindings span op target value) :
    Once d (span :: target.span :: value.spans) span
      (compile ctx (.assign span op target value)) := by
  -- Only a compound operator looks at the variable as an operand.
  have hcompound (o : BinaryOp) (v : Variable) (hop : op.operator? = some o)
      (hfind : ctx.bindings.find? target.name = some v) :
      (Operand.ofExpr ctx value).SilentAsLiteral d ∧ (v.ty.isVoid → d ≠ ⟨.voidValue, span⟩) := by
    simp only [compoundRepeats, hop, hfind, List.mem_append, not_or] at hd
    refine ⟨silentAsLiteral_of_not_mem hd.1, fun hvoid heq => hd.2 ?_⟩
    rw [if_pos hvoid, heq]
    exact List.mem_singleton_self _
  -- The parts have all of the reports, or the update adds one of its own.
  obtain ⟨n, hn, h⟩ := compileUpdate_parts (.ofExpr ctx value) hvalue htarget hcompound
  refine .of_parts houter fun t => ⟨n, hn, ?_⟩
  rw [compileAssign_times]
  rcases h with h | ⟨p, v, node, hr, hp, h⟩
  · exact .inl h
  · refine .inr ⟨p, ?_, h⟩
    rwa [compileAssign_ty hr]

end

private theorem compileCall_once {span : Span} {callee : Ident} {args : List Expr}
    (hargs : ∀ ts, OnceWithin d (Expr.spansAll args) ((compileArgs ctx args ts).times d))
    (houter : span ∉ callee.span :: Expr.spansAll args) :
    Once d (span :: callee.span :: Expr.spansAll args) span
      (compile ctx (.call span callee args)) := by
  refine .of_parts houter fun t => ?_
  cases hfind : ctx.functions.find? callee.name with
  | none =>
    have hcallee := OnceWithin.report (d := d) (.unknownFunction callee.name) callee.span
    refine ⟨_, hcallee.mono (by simp) le_rfl, .inl ?_⟩
    simp only [compile, hfind, poisoned_times, le_refl]
  | some s =>
    simp only [compile, hfind]
    -- Arguments are compiled only where their number is right.
    by_cases harity : s.params.length ≠ args.length
    · rw [if_pos harity]
      exact ⟨0, .zero, .inr ⟨.arityMismatch callee.name _ args.length,
        Problem.not_ofConversion nofun nofun, by rw [poisoned_times, Nat.zero_add]⟩⟩
    · rw [if_neg harity]
      refine ⟨_, (hargs s.params).mono (fun _ h => List.mem_cons_of_mem _ h) le_rfl, .inl ?_⟩
      rw [Reported.times_bind, Reported.times_pure, Nat.add_zero]

mutual

/-- What may not be reported twice is reported of an expression once. The induction is on the
    expression. -/
theorem compile_once (d : Diagnostic) (ctx : Context) : (e : Expr) → e.spans.Nodup →
    d ∉ repeatable ctx.bindings e → Once d e.spans e.span (compile ctx e)
  | .literal span l, _, _ => by
    simp only [Expr.spans, Expr.span]
    refine .of_parts List.not_mem_nil fun t => ⟨0, .zero, .inl ?_⟩
    simp only [compile, Reported.times_pure, le_refl]
  | .paren span e, hspans, hd => by
    simp only [Expr.spans, List.nodup_cons, repeatable, Expr.span] at hspans hd ⊢
    have ih := compile_once d ctx e hspans.2 hd
    refine .of_parts hspans.1 fun t => ⟨_, ih.onceWithin t, .inl ?_⟩
    simp only [compile, le_refl]
  | .name span name, _, _ => by
    simp only [Expr.spans, Expr.span]
    refine .of_parts List.not_mem_nil fun t => ⟨0, .zero, ?_⟩
    simp only [compile]
    split
    · exact .inl le_rfl
    · exact .inr ⟨.unknownIdentifier name, Problem.not_ofConversion nofun nofun,
        by rw [poisoned_times, Nat.zero_add]⟩
  | .unary span op e, hspans, hd => by
    simp only [Expr.spans, List.nodup_cons, repeatable, Expr.span] at hspans hd ⊢
    have ih := compile_once d ctx e hspans.2 hd
    -- The operator sees its operand only through what it compiles to.
    have heq : compile ctx (.unary span op e) = fun t =>
        compileUnary ctx.width op (.ofExpr ctx e) (literalOf? e) t span := by
      funext t
      simp only [compile, Operand.ofExpr]
    rw [heq]
    exact compileUnary_once op (.ofExpr ctx e) (literalOf? e) ih hspans.1
  | .binary span op left right, hspans, hd => by
    simp only [Expr.spans, List.nodup_cons, List.nodup_append', repeatable, List.mem_append,
      not_or, Expr.span] at hspans hd ⊢
    obtain ⟨houter, hleft, hright, hdisjoint⟩ := hspans
    have heq : compile ctx (.binary span op left right) = fun t =>
        compileBinary ctx.width op (.ofExpr ctx left) (.ofExpr ctx right) t span := by
      funext t
      simp only [compile, Operand.ofExpr]
    rw [heq]
    refine compileBinary_once op (.ofExpr ctx left) (.ofExpr ctx right)
      (compile_once d ctx left hleft hd.2.1) (compile_once d ctx right hright hd.2.2) ?_ hdisjoint
      (by simpa using houter)
    -- Only operators that run both sides compile a literal again.
    intro hop
    rw [hop, if_neg (by decide), List.mem_append, not_or] at hd
    exact ⟨silentAsLiteral_of_not_mem hd.1.1, silentAsLiteral_of_not_mem hd.1.2⟩
  | .assign span op target value, hspans, hd => by
    simp only [Expr.spans, List.nodup_cons] at hspans ⊢
    obtain ⟨houter, htarget, hvalue⟩ := hspans
    rw [repeatable, List.mem_append, not_or] at hd
    exact compileAssign_once (compile_once d ctx value hvalue hd.2) htarget houter hd.1
  | .call span callee args, hspans, hd => by
    simp only [Expr.spans, List.nodup_cons, repeatable] at hspans hd ⊢
    obtain ⟨houter, -, hargs⟩ := hspans
    exact compileCall_once (fun ts => compileArgs_once d ctx args ts hargs hd) houter
  | .cast span e t, hspans, hd => by
    simp only [Expr.spans, List.nodup_cons, repeatable, Expr.span] at hspans hd ⊢
    have ih := compile_once d ctx e hspans.2 hd
    have hparts := ih.converted (t := t) (convertExplicit_converts (w := ctx.width)
      (n := (compile ctx e t).value.node) (t := t))
    refine .of_parts hspans.1 fun _ => ⟨_, hparts, .inl ?_⟩
    simp only [compile, Reported.times_bind, Reported.times_pure, Nat.add_zero, le_refl]
termination_by structural e => e

/-- Arguments stand at different places, so what one reports no other does. -/
private theorem compileArgs_once (d : Diagnostic) (ctx : Context) : (args : List Expr) →
    (ts : List Ty) →
    (Expr.spansAll args).Nodup → d ∉ repeatableAll ctx.bindings args →
    OnceWithin d (Expr.spansAll args) ((compileArgs ctx args ts).times d)
  | [], _, _, _ => by
    simp only [compileArgs]
    exact .zero
  | arg :: args, [], _, _ => by
    simp only [compileArgs]
    exact .zero
  | arg :: args, t :: ts, hspans, hd => by
    simp only [Expr.spansAll, List.nodup_append', repeatableAll, List.mem_append, not_or]
      at hspans hd ⊢
    obtain ⟨harg, hargs, hdisjoint⟩ := hspans
    have ih := compile_once d ctx arg harg hd.1
    have ihs := compileArgs_once d ctx args ts hargs hd.2
    simp only [compileArgs, Reported.times_bind, Reported.times_pure, Nat.add_zero]
    -- The first argument with its conversion is counted against all others.
    rw [← Nat.add_assoc]
    exact (ih.converted convertImplicit_converts).add ihs hdisjoint
termination_by structural args => args

end

/-- An expression whose parts stand in different places is compiled without reporting anything
    twice, except minus signs in front of a truth value that is an operand, and compound assignments
    to a variable without a value. -/
theorem compile_reports_once (ctx : Context) {e : Expr} (hspans : e.spans.Nodup)
    (hd : d ∉ repeatable ctx.bindings e) (expected : Ty) :
    (compile ctx e expected).reports.count d ≤ 1 :=
  ((compile_once d ctx e hspans hd).onceWithin expected).once

/-- `-true && x` without a variable of the name: the minus sign is reported, and once. -/
theorem negation_of_condition_once :
    let e : Expr := .binary ⟨0, 10, 0⟩ .and
      (.unary ⟨0, 5, 0⟩ .minus (.literal ⟨1, 5, 0⟩ (.boolean true))) (.name ⟨9, 10, 0⟩ "x")
    let d : Diagnostic := ⟨.invalidOperand "-" .bool, ⟨0, 5, 0⟩⟩
    let reports := (compile ⟨.w32, {}, []⟩ e .void).reports
    e.spans.Nodup ∧ d ∉ repeatable [] e ∧ d ∈ reports ∧ reports.count d ≤ 1 := by
  intro e d reports
  have hspans : e.spans.Nodup := by decide
  have hd : d ∉ repeatable [] e := by decide
  exact ⟨hspans, hd, by decide, compile_reports_once ⟨.w32, {}, []⟩ hspans hd .void⟩

/-- `-true + 1.5`: the minus sign is reported when its operand is compiled, and when it is compiled
    again for the type of the other operand. -/
theorem negation_of_operand_twice :
    let e : Expr := .binary ⟨0, 11, 0⟩ .add
      (.unary ⟨0, 5, 0⟩ .minus (.literal ⟨1, 5, 0⟩ (.boolean true)))
      (.literal ⟨8, 11, 0⟩ (.float ⟨false, 0x3ff8000000000000⟩))
    let d : Diagnostic := ⟨.invalidOperand "-" .bool, ⟨0, 5, 0⟩⟩
    e.spans.Nodup ∧ (compile ⟨.w32, {}, []⟩ e .void).reports = [d, d] :=
  ⟨by decide, by rfl⟩

/-- `f(v += g())` with a variable and a function that have no value: that there is none is reported
    of the assignment and of the argument. -/
example :
    let e : Expr := .call ⟨0, 11, 0⟩ ⟨⟨0, 1, 0⟩, "f"⟩ [.assign ⟨2, 10, 0⟩ .add ⟨⟨2, 3, 0⟩, "v"⟩
      (.call ⟨7, 10, 0⟩ ⟨⟨7, 8, 0⟩, "g"⟩ [])]
    let functions : FunctionTable := ⟨[("f", ⟨0, [.i32], .i32⟩), ("g", ⟨1, [], .void⟩)]⟩
    let d : Diagnostic := ⟨.voidValue, ⟨2, 10, 0⟩⟩
    e.spans.Nodup ∧
      (compile ⟨.w32, functions, [[("v", ⟨0, .void, false⟩)]]⟩ e .void).reports = [d, d] :=
  ⟨by decide, by rfl⟩

end

end Weir.Lowering
