import Mathlib.Tactic.ByContra
import Weir.Proofs.ComparisonReports

/-!
# How often a problem is reported

A diagnostic is a problem and its span. An operator reports problems of its own at its span, and has
its operands converted, which is reported at theirs. So what is reported where an operand stands
comes from the operand and from its surroundings. They report the same only of an operand that has
no value and says so itself, or of one that is compiled twice.

## Key results

- `Once.converted`: an operand and its conversion report a problem once
- `compileStrict_times`: what a binary operator reports
- `compileBinary_once`, `compileUnary_once`, `compileUpdate_parts`: operators report a problem once
  if their operands do
-/

namespace Weir.Lowering

open Weir.Code (Node)
open Weir.Source (AssignOp BinaryOp Ident Literal PointerWidth Span Ty UnaryOp)
open Reported (report)

namespace Reported

variable {α β : Type}

/-- How often a diagnostic is reported. -/
def times (r : Reported α) (d : Diagnostic) : Nat := r.reports.count d

variable {d : Diagnostic}

@[simp] theorem times_pure (a : α) : (pure a : Reported α).times d = 0 := rfl

/-- A report is counted in both steps. -/
@[simp] theorem times_bind (r : Reported α) (f : α → Reported β) :
    (r >>= f).times d = r.times d + (f r.value).times d :=
  List.count_append

/-- A report counts for its own diagnostic and for no other. -/
private theorem times_report (problem : Problem) (span : Span) :
    (report problem span).times d = if ⟨problem, span⟩ = d then 1 else 0 := by
  simp [times, report, List.count_singleton]

/-- A single report is made once. -/
private theorem times_report_le (problem : Problem) (span : Span) :
    (report problem span).times d ≤ 1 := by
  rw [times_report]
  split <;> omega

/-- What a single report counts is the report itself. -/
theorem eq_of_times_report {problem : Problem} {span : Span}
    (h : 0 < (report problem span).times d) : d = ⟨problem, span⟩ := by
  rw [times_report] at h
  split at h
  next heq => exact heq.symm
  next => cases h

end Reported

open Reported (times_report_le eq_of_times_report)

/-- A diagnostic is reported once at most, and only within some spans. -/
structure OnceWithin (d : Diagnostic) (spans : List Span) (n : Nat) : Prop where
  once : n ≤ 1
  within : 0 < n → d.span ∈ spans

namespace OnceWithin

variable {d : Diagnostic} {spans spans' : List Span} {n m : Nat}

/-- A diagnostic that is not reported can be allowed anywhere. -/
theorem zero : OnceWithin d spans 0 := ⟨by omega, fun h => by omega⟩

/-- More places and fewer reports are always allowed. -/
theorem mono (h : OnceWithin d spans n) (hspans : ∀ s ∈ spans, s ∈ spans') (hle : m ≤ n) :
    OnceWithin d spans' m :=
  ⟨hle.trans h.once, fun hm => hspans _ (h.within (by omega))⟩

/-- What is reported in different places is different. -/
theorem add (hn : OnceWithin d spans n) (hm : OnceWithin d spans' m) (h : spans.Disjoint spans') :
    OnceWithin d (spans ++ spans') (n + m) := by
  have hn1 := hn.once
  have hm1 := hm.once
  have hboth : n = 0 ∨ m = 0 := by
    by_contra hpos
    exact h (hn.within (by omega)) (hm.within (by omega))
  refine ⟨by omega, fun hpos => List.mem_append.2 ?_⟩
  rcases hboth with rfl | rfl
  · exact .inr (hm.within (by omega))
  · exact .inl (hn.within (by omega))

/-- A single report is allowed at its own place. -/
theorem report (problem : Problem) (span : Span) :
    OnceWithin d [span] ((report problem span).times d) :=
  ⟨times_report_le _ _, fun h => by rw [eq_of_times_report h]; exact List.mem_singleton_self _⟩

end OnceWithin

/-! ## Conversions -/

/-- The problem is one that a conversion of a value of the type may report. -/
def Problem.OfConversion (p : Problem) (s : Ty) : Prop :=
  (p = .voidValue ∧ s.isVoid) ∨ ∃ a b, p = .implicitConversion a b

/-- A missing value is no matter of converting from a type that has values. -/
private theorem Problem.not_ofConversion_voidValue {s : Ty} (hs : s.isVoid = false) :
    ¬ Problem.voidValue.OfConversion s := by
  rintro (⟨-, h⟩ | ⟨a, b, h⟩)
  · rw [hs] at h
    cases h
  · cases h

/-- A conversion is only ever reported for a missing value or a lost one. -/
theorem Problem.not_ofConversion {p : Problem} {s : Ty} (hvoid : p ≠ .voidValue)
    (himplicit : ∀ a b, p ≠ .implicitConversion a b) : ¬ p.OfConversion s := by
  rintro (⟨h, -⟩ | ⟨a, b, h⟩)
  · exact hvoid h
  · exact himplicit a b h

/-- So often a diagnostic is reported by conversions of a value of the type, which stands at the
    span. -/
structure Converts (d : Diagnostic) (span : Span) (s : Ty) (n : Nat) : Prop where
  once : n ≤ 1
  own : 0 < n → d.span = span ∧ d.problem.OfConversion s

section

variable {d : Diagnostic} {w : PointerWidth} {n : Node} {s t : Ty} {span : Span}

/-- An implicit conversion reports that there is no value, or the two types. -/
private theorem convertImplicit_times (h : 0 < (convertImplicit w n s t span).times d) :
    d = ⟨.voidValue, span⟩ ∧ s.isVoid ∨
      d = ⟨.implicitConversion s t, span⟩ ∧ lossless w s t = false := by
  unfold convertImplicit checkImplicit at h
  cases hs : s.isVoid <;> cases ht : t.isVoid <;> cases hlossless : lossless w s t <;>
    simp [hs, ht, hlossless] at h <;> first
      | exact .inl ⟨eq_of_times_report h, rfl⟩
      | exact .inr ⟨eq_of_times_report h, rfl⟩

/-- An implicit conversion reports at most once, at its own place. -/
theorem convertImplicit_converts : Converts d span s ((convertImplicit w n s t span).times d) := by
  constructor
  · unfold convertImplicit
    split <;> simp [times_report_le]
  · intro h
    rcases convertImplicit_times h with ⟨rfl, hs⟩ | ⟨rfl, -⟩
    · exact ⟨rfl, .inl ⟨rfl, hs⟩⟩
    · exact ⟨rfl, .inr ⟨s, t, rfl⟩⟩

private theorem Converts.zero : Converts d span s 0 :=
    ⟨Nat.zero_le 1, fun h => absurd h (Nat.lt_irrefl 0)⟩

/-- Nothing but a missing value is reported of an explicit conversion. -/
theorem convertExplicit_converts : Converts d span s ((convertExplicit w n s t span).times d) := by
  unfold convertExplicit checkExplicit
  cases hs : s.isVoid <;> cases ht : t.isVoid
  -- Only here is a value to be made from none.
  case true.false =>
    constructor
    · simp [times_report_le]
    · intro h
      rw [eq_of_times_report (d := d) (by simpa using h)]
      exact ⟨rfl, .inl ⟨rfl, hs⟩⟩
  all_goals exact ⟨by simp, fun h => by simp at h⟩

private theorem lossless_self (w : PointerWidth) (t : Ty) : lossless w t t := by
  simp [lossless, losslessResolved]

/-- From a type with values a conversion is reported only because it loses some. -/
private theorem convertImplicit_times_of_value (hs : s.isVoid = false)
    (h : 0 < (convertImplicit w n s t span).times d) :
    d = ⟨.implicitConversion s t, span⟩ ∧ lossless w s t = false := by
  rcases convertImplicit_times h with ⟨-, hvoid⟩ | h
  · rw [hs] at hvoid
    cases hvoid
  · exact h

/-- A value that is converted to a type and then to another one. A report that both conversions give
    would be of a conversion from a type to itself. -/
private theorem Converts.twice {n' : Node} {u : Ty} (ht : t.isVoid = false) :
    Converts d span s
      ((convertImplicit w n s t span).times d + (convertImplicit w n' t u span).times d) := by
  have hfirst : Converts d span s _ := convertImplicit_converts (w := w) (n := n) (t := t)
  have hsecond : Converts d span t _ := convertImplicit_converts (w := w) (n := n') (t := u)
  have hle := hfirst.once
  have hle' := hsecond.once
  -- The first conversion could report the same only of a type and itself, which loses nothing.
  by_cases h : 0 < (convertImplicit w n' t u span).times d
  · obtain ⟨rfl, -⟩ := convertImplicit_times_of_value ht h
    have hnone : ¬ 0 < (convertImplicit w n s t span).times ⟨.implicitConversion t u, span⟩ := by
      intro hpos
      rcases convertImplicit_times hpos with ⟨heq, -⟩ | ⟨heq, hlossless⟩
      · cases heq
      · cases heq
        rw [lossless_self] at hlossless
        cases hlossless
    exact ⟨by omega, fun _ => ⟨rfl, .inr ⟨t, u, rfl⟩⟩⟩
  · exact ⟨by omega, fun hpos => hfirst.own (by omega)⟩

/-- What is reported of a value may be reported of another one as well. -/
private theorem Converts.of_value {k : Nat} (h : Converts d span s k) (hs : s.isVoid = false) :
    Converts d span t k := by
  refine ⟨h.once, fun hpos => ?_⟩
  obtain ⟨hspan, ⟨-, hvoid⟩ | hproblem⟩ := h.own hpos
  · rw [hs] at hvoid
    cases hvoid
  · exact ⟨hspan, .inr hproblem⟩

end

/-! ## Expressions as operands -/

/-- What is compiled reports a diagnostic once at most, within its spans, and at the span where it
    stands only if no conversion reports the same there. -/
structure Once (d : Diagnostic) (spans : List Span) (span : Span) (run : Ty → Reported Compiled) :
    Prop where
  stands : span ∈ spans
  onceWithin : ∀ t, OnceWithin d spans ((run t).times d)
  own : ∀ t, 0 < (run t).times d → d.span = span → ¬ d.problem.OfConversion (run t).value.ty

section

variable {d : Diagnostic} {spans : List Span} {span : Span} {run : Ty → Reported Compiled}

/-- An operand and its conversion report a diagnostic once. -/
theorem Once.converted (h : Once d spans span run) {t : Ty} {n : Nat}
    (hn : Converts d span (run t).value.ty n) : OnceWithin d spans ((run t).times d + n) := by
  have honce := (h.onceWithin t).once
  have honce' := hn.once
  refine ⟨?_, fun hpos => ?_⟩
  · by_contra hboth
    obtain ⟨hspan, hproblem⟩ := hn.own (by omega)
    exact h.own t (by omega) hspan hproblem
  · by_cases hrun : 0 < (run t).times d
    · exact (h.onceWithin t).within hrun
    · rw [(hn.own (by omega)).1]
      exact h.stands

/-- What is compiled of parts that stand elsewhere reports a problem of its own that no conversion
    reports, or nothing. -/
theorem Once.of_parts (houter : span ∉ spans)
    (h : ∀ t, ∃ n, OnceWithin d spans n ∧ ((run t).times d ≤ n ∨
      ∃ p, ¬ p.OfConversion (run t).value.ty ∧ (run t).times d ≤ n + (report p span).times d)) :
    Once d (span :: spans) span run := by
  have hdisjoint : spans.Disjoint [span] := by simpa using houter
  refine ⟨List.mem_cons_self, fun t => ?_, fun t hpos hspan => ?_⟩
  -- Either the parts have all of the reports, or one more stands at the place of the whole.
  all_goals obtain ⟨n, hn, hle | ⟨p, hp, hle⟩⟩ := h t
  · exact hn.mono (fun s hs => List.mem_cons_of_mem _ hs) hle
  · exact (hn.add (.report p span) hdisjoint).mono (by simp [or_comm]) hle
  · exact absurd (hspan ▸ hn.within (by omega)) houter
  · have hreport : 0 < (report p span).times d := by
      by_contra hnone
      exact houter (hspan ▸ hn.within (by omega))
    rw [eq_of_times_report hreport]
    exact hp

end

/-- If the operand is a literal, the diagnostic is not reported of it. -/
def Operand.SilentAsLiteral (d : Diagnostic) (e : Operand) : Prop :=
  e.isLiteral → ∀ t, (e.compile t).times d = 0

/-- An operand of an operator that may compile it twice. -/
structure Operand.Once (d : Diagnostic) (spans : List Span) (e : Operand) : Prop where
  toOnce : Lowering.Once d spans e.span e.compile
  literal : e.SilentAsLiteral d

namespace Operand

variable {d : Diagnostic} {spans : List Span} {e : Operand}

/-- How often an operand reports a diagnostic when it is compiled, and again for the type that
    suits both operands. -/
def compilations (e : Operand) (d : Diagnostic) (hint common : Ty) : Nat :=
  (e.compile hint).times d + (e.retype (e.compile hint).value common).times d

/-- What an operand is compiled to in the end. -/
def compiled (e : Operand) (hint common : Ty) : Compiled :=
  (e.retype (e.compile hint).value common).value

/-- How often it is reported that an operand is converted. -/
def conversions (w : PointerWidth) (e : Operand) (d : Diagnostic) (hint common target : Ty) : Nat :=
  let c := e.compiled hint common
  (convertImplicit w c.node c.ty target e.span).times d

/-- An operand reports a diagnostic once, whether or not it is compiled twice. -/
theorem Once.converted (h : e.Once d spans) (hint common : Ty) {n : Nat}
    (hn : Converts d e.span (e.compiled hint common).ty n) :
    OnceWithin d spans (e.compilations d hint common + n) := by
  unfold compiled Operand.retype at hn
  unfold compilations Operand.retype
  split at hn
  next hretyped =>
    rw [if_pos hretyped, h.literal hretyped.2 hint, Nat.zero_add]
    exact h.toOnce.converted hn
  next hkept =>
    rw [if_neg hkept]
    exact h.toOnce.converted hn

/-- An operand that is compiled once more reports no more than once. -/
private theorem Once.compilations (h : e.Once d spans) (hint common : Ty) :
    OnceWithin d spans (e.compilations d hint common) :=
  h.converted hint common .zero

end Operand

/-! ## Operators -/

section

variable {d : Diagnostic} {w : PointerWidth} {sl sr spans : List Span} {span : Span}
  {left right operand : Operand} {expected : Ty}

theorem isVoid_fallbackType (w : PointerWidth) (t : Ty) : (fallbackType w t).isVoid = false := by
  cases w <;> cases t <;> rfl

/-- Code that stands in for a value is reported once. -/
@[simp] theorem poisoned_times (w : PointerWidth) (t : Ty) (p : Problem) (span : Span) :
    (poisoned w t p span).times d = (report p span).times d := by
  simp [poisoned]

/-- A binary operator reports what its operands report, and then a problem of its own or what the
    conversion of its operands to one type reports. -/
theorem compileStrict_times (w : PointerWidth) (op : BinaryOp) (left right : Operand)
    (expected : Ty) (span : Span) :
    let c := compileStrict w op left right expected span
    c.value.ty.isVoid = false ∧ ∃ hint hint' common,
      (∃ p, ¬ p.OfConversion c.value.ty ∧
        c.times d ≤ left.compilations d hint common + right.compilations d hint' common +
          (report p span).times d) ∨
      ∃ target : Ty, target.isVoid = false ∧ (op.isComparison = false → c.value.ty = target) ∧
        c.times d =
          (left.compilations d hint common + left.conversions w d hint common target) +
          (right.compilations d hint' common + right.conversions w d hint' common target) := by
  unfold compileStrict
  simp only [Reported.value_bind, Reported.times_bind]
  generalize (if op.isComparison then Ty.void else expected) = hint
  generalize (if left.isLiteral then hint else (left.compile hint).value.ty) = hint'
  generalize unify w _ _ = common
  -- The sides may have no type in common, or it may have no such operator.
  cases hvoid : common.isVoid with
  | true =>
    refine ⟨isVoid_fallbackType w expected, hint, hint', common, .inl ⟨.voidValue, ?_, ?_⟩⟩
    · exact Problem.not_ofConversion_voidValue (isVoid_fallbackType w expected)
    · simp only [if_true, poisoned_times, Operand.compilations]
      omega
  | false =>
    simp only [Bool.false_eq_true, if_false, Reported.value_bind, Reported.times_bind]
    -- Truth values are calculated with as integers.
    have htarget : (if common = .bool && !op.isComparison then Ty.i32 else common).isVoid =
        false := by
      split
      · rfl
      · exact hvoid
    generalize (if common = .bool && !op.isComparison then Ty.i32 else common) = target at *
    cases hcode : operatorFor? op target with
    | none =>
      refine ⟨isVoid_fallbackType w expected, hint, hint', common,
        .inl ⟨.invalidOperand op.symbol target, ?_, ?_⟩⟩
      · exact Problem.not_ofConversion nofun nofun
      · simp only [poisoned_times, Operand.compilations]
        omega
    | some code =>
      simp only [Reported.value_bind, Reported.times_bind, Reported.value_pure,
        Reported.times_pure]
      refine ⟨?_, hint, hint', common, .inr ⟨target, htarget, fun hop => ?_, ?_⟩⟩
      · split
        · rfl
        · exact htarget
      · rw [hop]
        rfl
      · simp only [Operand.compilations, Operand.conversions, Operand.compiled]
        omega

/-- An operand is converted from the type that it was compiled to. -/
private theorem Operand.conversions_converts (w : PointerWidth) (e : Operand)
    (hint common target : Ty) :
    Converts d e.span (e.compiled hint common).ty (e.conversions w d hint common target) :=
  convertImplicit_converts

/-- An operator that runs both sides reports what they report, and one problem of its own. -/
private theorem compileStrict_once (op : BinaryOp) (hl : left.Once d sl) (hr : right.Once d sr)
    (hdisjoint : sl.Disjoint sr) (houter : span ∉ sl ++ sr) :
    Once d (span :: (sl ++ sr)) span fun t => compileStrict w op left right t span := by
  refine .of_parts houter fun t => ?_
  obtain ⟨-, hint, hint', common, ⟨p, hp, hle⟩ | ⟨target, -, -, heq⟩⟩ :=
    compileStrict_times (d := d) w op left right t span
  · have hparts := (hl.compilations hint common).add (hr.compilations hint' common) hdisjoint
    exact ⟨_, hparts, .inr ⟨p, hp, hle⟩⟩
  -- Both sides are converted to the type they meet at.
  · have hleft := hl.converted hint common (left.conversions_converts w hint common target)
    have hright := hr.converted hint' common (right.conversions_converts w hint' common target)
    exact ⟨_, hleft.add hright hdisjoint, .inl heq.le⟩

/-- A condition reports what its expression reports, or that there is no value. -/
private theorem Once.condition (h : Once d spans operand.span operand.compile) :
    OnceWithin d spans ((operand.condition w).times d) := by
  unfold Operand.condition
  rw [Reported.times_bind]
  exact h.converted convertExplicit_converts

/-- The short-circuit operators have no problem of their own. -/
private theorem compileLogical_once (isAnd : Bool) (hl : Once d sl left.span left.compile)
    (hr : Once d sr right.span right.compile) (hdisjoint : sl.Disjoint sr)
    (houter : span ∉ sl ++ sr) :
    Once d (span :: (sl ++ sr)) span fun _ => compileLogical w isAnd left right := by
  have hparts := (hl.condition (w := w)).add (hr.condition (w := w)) hdisjoint
  refine .of_parts houter fun _ => ⟨_, hparts, .inl ?_⟩
  simp [compileLogical]

/-- A binary operator reports a diagnostic once if its operands do. -/
theorem compileBinary_once (op : BinaryOp) (left right : Operand)
    (hl : Once d sl left.span left.compile) (hr : Once d sr right.span right.compile)
    (hliteral : op.isLogical = false → left.SilentAsLiteral d ∧ right.SilentAsLiteral d)
    (hdisjoint : sl.Disjoint sr) (houter : span ∉ sl ++ sr) :
    Once d (span :: (sl ++ sr)) span fun t => compileBinary w op left right t span := by
  cases op with
  | and => exact compileLogical_once true hl hr hdisjoint houter
  | or => exact compileLogical_once false hl hr hdisjoint houter
  | _ =>
    obtain ⟨hleft, hright⟩ := hliteral rfl
    exact compileStrict_once _ ⟨hl, hleft⟩ ⟨hr, hright⟩ hdisjoint houter

/-- A unary operator reports a diagnostic once if its operand does. -/
theorem compileUnary_once (op : UnaryOp) (operand : Operand) (literal? : Option Literal)
    (h : Once d spans operand.span operand.compile) (houter : span ∉ spans) :
    Once d (span :: spans) span fun t => compileUnary w op operand literal? t span := by
  refine .of_parts houter fun t => ?_
  have hoperand := h.onceWithin t
  unfold compileUnary
  split
  · exact ⟨_, hoperand, .inl le_rfl⟩
  · exact ⟨_, h.condition (w := w), .inl (by simp)⟩
  · exact ⟨0, .zero, .inl le_rfl⟩
  · exact ⟨0, .zero, .inl le_rfl⟩
  · simp only [Reported.times_bind, Reported.value_bind]
    refine ⟨_, hoperand, ?_⟩
    split
    · exact .inl le_rfl
    · split
      · exact .inl le_rfl
      · exact .inr ⟨.invalidOperand UnaryOp.minus.symbol _, Problem.not_ofConversion nofun nofun,
          by rw [poisoned_times]⟩
  · simp only [Reported.times_bind, Reported.value_bind]
    refine ⟨_, hoperand, ?_⟩
    split
    · exact .inl le_rfl
    · exact .inr ⟨.invalidOperand UnaryOp.bitNot.symbol _, Problem.not_ofConversion nofun nofun,
        by rw [poisoned_times]⟩

/-! ### Assignments -/

/-- The report that a constant is assigned to. -/
private def constReport (v : Variable) (target : Ident) : Reported Unit :=
  if v.isConst then report (.assignToConst target.name) target.span else pure ()

variable {ctx : Context} {v : Variable} {target : Ident} {value : Operand}

/-- That a constant is assigned to is reported where it stands, and not by a conversion. -/
private theorem constReport_once (v : Variable) (target : Ident) :
    Once d [target.span] target.span fun _ =>
      (do constReport v target; pure (readVariable w v) : Reported Compiled) := by
  unfold constReport
  refine ⟨List.mem_singleton_self _, fun _ => ?_, fun _ hpos _ => ?_⟩
  · split
    · simpa using OnceWithin.report _ _
    · exact .zero
  · split at hpos
    · rw [eq_of_times_report (d := d) (by simpa using hpos)]
      exact Problem.not_ofConversion nofun nofun
    · simp at hpos

/-- That a constant is assigned to is reported at the target, where nothing else is but its
    conversion. -/
private theorem constReport_converted (v : Variable) (target : Ident) {n : Nat}
    (hn : Converts d target.span v.ty n) :
    OnceWithin d [target.span] ((constReport v target).times d + n) := by
  have h := constReport_once (d := d) (w := .w32) v target
  simpa using h.converted (t := .void) hn

/-- The target of an assignment as an operand. -/
private def Operand.ofTarget (w : PointerWidth) (v : Variable) (target : Ident) : Operand :=
  ⟨fun _ => pure (readVariable w v), false, target.span⟩

/-- Reading the target of an assignment reports nothing, whatever is expected of it. -/
private theorem ofTarget_compiled (w : PointerWidth) (v : Variable) (target : Ident)
    (hint common : Ty) :
    (Operand.ofTarget w v target).compilations d hint common = 0 ∧
      (Operand.ofTarget w v target).compiled hint common = readVariable w v := by
  simp [Operand.ofTarget, Operand.compilations, Operand.compiled, Operand.retype]

/-- What is assigned to a variable. -/
private def newValue (w : PointerWidth) (op : AssignOp) (v : Variable) (target : Ident)
    (value : Operand) (span : Span) : Reported Compiled :=
  match op.operator? with
  | none => value.compile v.ty
  | some op => compileBinary w op (.ofTarget w v target) value v.ty span

/-- An update reports a constant target, the new value and its conversion, in this order. -/
private theorem compileUpdate_eq (op : AssignOp) (value : Operand) (span : Span)
    (h : ctx.bindings.find? target.name = some v) :
    let r := compileUpdate ctx op target value span
    let c := newValue ctx.width op v target value span
    (∃ n, r.value = some (v, n)) ∧
      r.times d = (constReport v target).times d + (c.times d +
        (convertImplicit ctx.width c.value.node c.value.ty v.ty value.span).times d) := by
  unfold compileUpdate newValue
  rw [h]
  dsimp only
  -- Plain and compound assignments differ only in the new value.
  cases hconst : v.isConst <;> cases op.operator? <;> simp [constReport, hconst, Operand.ofTarget]

/-- A compound assignment computes, so it compares nothing and runs both sides. -/
private theorem strict_of_operator {op : AssignOp} {o : BinaryOp} (h : op.operator? = some o) :
    o.isComparison = false ∧ compileBinary w o left right expected span =
      compileStrict w o left right expected span := by
  cases op <;> cases h <;> exact ⟨rfl, rfl⟩

/-- The value of a compound assignment is converted to the type that it is calculated in, and what
    was calculated to the type of the variable. -/
private theorem compound_parts {op : BinaryOp} (hop : op.isComparison = false)
    (hvalue : value.Once d spans) (htarget : target.span ∉ spans)
    (hvoid : v.ty.isVoid → d ≠ ⟨.voidValue, span⟩) :
    let c := compileStrict w op (.ofTarget w v target) value v.ty span
    let m := (constReport v target).times d +
      (c.times d + (convertImplicit w c.value.node c.value.ty v.ty value.span).times d)
    ∃ n, OnceWithin d (target.span :: spans) n ∧
      (m ≤ n ∨ ∃ p, ¬ p.OfConversion v.ty ∧ m ≤ n + (report p span).times d) := by
  have hstrict := compileStrict_times (d := d) w op (.ofTarget w v target) value v.ty span
  dsimp only at hstrict ⊢
  generalize compileStrict w op (.ofTarget w v target) value v.ty span = c at hstrict ⊢
  have hdisjoint : [target.span].Disjoint spans := by simpa using htarget
  obtain ⟨hc, hint, hint', common, hcases⟩ := hstrict
  obtain ⟨hnone, hcurrent⟩ := ofTarget_compiled (d := d) w v target hint common
  rw [hnone, Nat.zero_add] at hcases
  rcases hcases with ⟨p, hp, hle⟩ | ⟨t, ht, hty, heq⟩
  · have hconverted : Converts d value.span c.value.ty _ :=
      convertImplicit_converts (w := w) (n := c.value.node) (t := v.ty)
    have hright := hvalue.converted hint' common (hconverted.of_value hc)
    refine ⟨_, (constReport_converted v target .zero).add hright hdisjoint, ?_⟩
    -- A problem of the operator lies at the assignment, where the conversion could report it only
    -- as a missing value.
    by_cases hconversion : p.OfConversion v.ty
    · left
      rcases hconversion with ⟨rfl, hvoid'⟩ | h
      · have hnone : (report .voidValue span).times d = 0 := by
          by_contra hpos
          exact hvoid hvoid' (eq_of_times_report (Nat.pos_of_ne_zero hpos))
        omega
      · exact absurd (.inr h) hp
    · exact .inr ⟨p, hconversion, by omega⟩
  -- The value is converted to the operator's type, and the result to that of the variable.
  · have htwice : Converts d value.span (value.compiled hint' common).ty
        (value.conversions w d hint' common t +
          (convertImplicit w c.value.node c.value.ty v.ty value.span).times d) := by
      rw [hty hop]
      exact .twice ht
    have hleft : Converts d target.span v.ty
        ((Operand.ofTarget w v target).conversions w d hint common t) := by
      have h := (Operand.ofTarget w v target).conversions_converts (d := d) w hint common t
      rwa [hcurrent] at h
    have hright := hvalue.converted hint' common htwice
    refine ⟨_, (constReport_converted v target hleft).add hright hdisjoint, .inl ?_⟩
    omega

/-- An assignment reports what its target and its value report in their places, and a problem of its
    own that no conversion reports. That there is no value is none of these when the assignment is
    compound and to a variable without a value. -/
theorem compileUpdate_parts (value : Operand) {op : AssignOp}
    (hvalue : Once d spans value.span value.compile)
    (htarget : target.span ∉ spans)
    (hcompound : ∀ o v, op.operator? = some o → ctx.bindings.find? target.name = some v →
      value.SilentAsLiteral d ∧ (v.ty.isVoid → d ≠ ⟨.voidValue, span⟩)) :
    let r := compileUpdate ctx op target value span
    ∃ n, OnceWithin d (target.span :: spans) n ∧ (r.times d ≤ n ∨
      ∃ p v node, r.value = some (v, node) ∧ ¬ p.OfConversion v.ty ∧
        r.times d ≤ n + (report p span).times d) := by
  intro r
  cases hfind : ctx.bindings.find? target.name with
  | none =>
    refine ⟨_, (OnceWithin.report (.unknownIdentifier target.name) target.span).mono (by simp)
      le_rfl, .inl ?_⟩
    simp [r, compileUpdate, hfind]
  | some v =>
    obtain ⟨⟨node, hr⟩, htimes⟩ := compileUpdate_eq (d := d) op value span hfind
    -- A compound operator may compile the value a second time, as a literal.
    cases hop : op.operator? with
    | none =>
      have hplain := hvalue.converted (t := v.ty)
        (convertImplicit_converts (d := d) (w := ctx.width) (n := (value.compile v.ty).value.node)
          (t := v.ty))
      have hparts := (constReport_converted v target .zero).add hplain (by simpa using htarget)
      refine ⟨_, hparts, .inl ?_⟩
      simp only [newValue, hop] at htimes
      exact htimes.le
    | some o =>
      obtain ⟨hcomparison, hstrict⟩ := strict_of_operator hop
      obtain ⟨hliteral, hvoid⟩ := hcompound o v hop hfind
      obtain ⟨n, hn, h⟩ := compound_parts (w := ctx.width) hcomparison ⟨hvalue, hliteral⟩ htarget
        hvoid
      refine ⟨n, hn, ?_⟩
      simp only [newValue, hop] at htimes
      rw [hstrict] at htimes
      rcases h with h | ⟨p, hp, h⟩
      · exact .inl (htimes.le.trans h)
      · exact .inr ⟨p, v, node, hr, hp, htimes.le.trans h⟩

end

end Weir.Lowering
