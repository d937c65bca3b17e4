import Weir.Proofs.EvaluationOrder

/-!
# Expressions to which the expected type makes no difference

The type that is expected of an expression is handed down to the operand that comes first in it, and
steers literals there. An expression in which no literal comes first compiles to one code whatever
is expected. That is also so of comparisons and of logical operators, whose operands are not told
what is expected.

## Key results

- `compile_rigid`: the code of an expression in which no literal comes first
-/

namespace Weir.Source

/-- Whether it makes no difference to an expression what is expected of it, because no literal comes
    first. -/
def Expr.isRigid : Expr → Bool
  | .name .. | .cast .. => true
  | .paren _ e => e.isRigid
  | .unary _ op e => op = .not || e.isRigid
  | .binary _ op left _ => op.isComparison || op.isLogical || left.isRigid
  | .literal .. | .assign .. | .call .. => false

end Weir.Source

namespace Weir.Lowering

open Weir.Source (BinaryOp Expr PointerWidth Span Ty UnaryOp)

namespace Reported

variable {α β : Type}

/-- Two steps report nothing if neither of them does. -/
theorem bind_quiet_iff {r : Reported α} {f : α → Reported β} :
    (r >>= f).reports = [] ↔ r.reports = [] ∧ (f r.value).reports = [] :=
  List.append_eq_nil_iff

/-- What follows a step depends on its value only. -/
private theorem bind_congr_value {r : Reported α} {f g : α → Reported β}
    (h : f r.value = g r.value) :
    r >>= f = r >>= g :=
  congrArg (fun next : Reported β => (⟨next.value, r.reports ++ next.reports⟩ : Reported β)) h

end Reported

open Reported (bind_quiet_iff bind_congr_value)

section

variable {w : PointerWidth} {e left right : Operand} {s t : Ty} {op : BinaryOp} {span : Span}

/-- It makes no difference to an operand whether one or the other type is expected of it, if nothing
    is reported. -/
def Operand.Rigid (e : Operand) (s t : Ty) : Prop :=
  (e.compile s).reports = [] → e.compile t = e.compile s

/-- A problem that code stands for is reported. -/
private theorem poisoned_not_quiet {problem : Problem} :
    (poisoned w s problem span).reports ≠ [] :=
  List.cons_ne_nil _ _

/-- A unary operator on a rigid operand is rigid, and so is a negation. -/
private theorem compileUnary_rigid {op : UnaryOp} (h : op = .not ∨ e.Rigid s t)
    (hquiet : (compileUnary w op e none s span).reports = []) :
    compileUnary w op e none t span = compileUnary w op e none s span := by
  cases op with
  | not => rfl
  | plus => exact (h.resolve_left (by decide)) hquiet
  | minus | bitNot =>
    obtain ⟨he, hrest⟩ := bind_quiet_iff.1 hquiet
    unfold compileUnary
    rw [h.resolve_left (by decide) he]
    refine bind_congr_value ?_
    dsimp only at hrest ⊢
    -- Only the type of code that traps would be another one.
    repeat' split at hrest
    all_goals first
      | exact absurd hrest poisoned_not_quiet
      | simp only [*, if_true, if_false, Bool.false_eq_true]

/-- A comparison is rigid, and so is any operator whose left operand is. -/
private theorem compileStrict_rigid
    (h : op.isComparison ∨ left.isLiteral = false ∧ left.Rigid s t)
    (hquiet : (compileStrict w op left right s span).reports = []) :
    compileStrict w op left right t span = compileStrict w op left right s span := by
  unfold compileStrict at hquiet ⊢
  obtain ⟨hl, hrest⟩ := bind_quiet_iff.1 hquiet
  obtain ⟨-, hrest⟩ := bind_quiet_iff.1 hrest
  -- The operands are compiled for the same types.
  have hleft : left.compile (if op.isComparison then .void else t) =
      left.compile (if op.isComparison then .void else s) := by
    rcases h with hop | ⟨-, hrigid⟩
    · rw [hop]
      rfl
    · cases hop : op.isComparison with
      | true => rfl
      | false =>
        rw [hop] at hl
        exact hrigid hl
  have hhint (u : Ty) : (if left.isLiteral then (if op.isComparison then .void else t) else u) =
      if left.isLiteral then (if op.isComparison then .void else s) else u := by
    rcases h with hop | ⟨hliteral, -⟩
    · rw [hop]
      rfl
    · rw [hliteral]
      rfl
  -- From here on both sides compute with the same operands, and differ in reports at most.
  dsimp only at hrest ⊢
  simp only [hleft, hhint]
  refine bind_congr_value (bind_congr_value ?_)
  generalize (if op.isComparison then Ty.void else s) = hint at hrest ⊢
  generalize (left.compile hint).value = l at hrest ⊢
  generalize (right.compile (if left.isLiteral then hint else l.ty)).value = r at hrest ⊢
  generalize unify w l.ty r.ty = common at hrest ⊢
  by_cases hvoid : common.isVoid
  · rw [if_pos hvoid] at hrest
    exact absurd hrest poisoned_not_quiet
  · rw [if_neg hvoid] at hrest ⊢
    rw [if_neg hvoid]
    refine bind_congr_value (bind_congr_value ?_)
    obtain ⟨-, hrest⟩ := bind_quiet_iff.1 hrest
    obtain ⟨-, hrest⟩ := bind_quiet_iff.1 hrest
    generalize (if common = .bool && !op.isComparison then Ty.i32 else common) = operand at hrest ⊢
    cases hcode : operatorFor? op operand with
    | none =>
      rw [hcode] at hrest
      exact absurd hrest poisoned_not_quiet
    | some code => rfl

/-- A binary operator is rigid where it compares, or tests, or has a rigid left operand. -/
private theorem compileBinary_rigid
    (h : op.isComparison ∨ op.isLogical ∨ left.isLiteral = false ∧ left.Rigid s t)
    (hquiet : (compileBinary w op left right s span).reports = []) :
    compileBinary w op left right t span = compileBinary w op left right s span := by
  cases op with
  | and | or => rfl
  | eq | ne | lt | le | gt | ge => exact compileStrict_rigid (.inl rfl) hquiet
  | _ =>
    refine compileStrict_rigid ?_ hquiet
    rcases h with h | h | h
    · cases h
    · cases h
    · exact .inr h

end

variable {ctx : Context} {s t : Ty}

/-- A rigid expression is no literal, not even in parentheses or under signs. -/
theorem isLiteral_of_isRigid : (e : Expr) → e.isRigid → isLiteral e = false
  | .name .., _ | .cast .., _ | .binary .., _ => rfl
  | .paren _ e, h => isLiteral_of_isRigid e h
  | .unary _ .not _, _ | .unary _ .bitNot _, _ => rfl
  | .unary _ .plus e, h | .unary _ .minus e, h => isLiteral_of_isRigid e h
termination_by structural e => e

/-- A minus sign in front of a rigid expression does not belong to a literal. -/
private theorem literalOf?_of_isRigid {e : Expr} (h : e.isRigid) : literalOf? e = none := by
  cases e with
  | literal => cases h
  | _ => rfl

/-- It makes no difference to an expression what is expected of it, if no literal comes first and
    nothing is reported. -/
theorem compile_rigid : (e : Expr) → e.isRigid → (compile ctx e s).reports = [] →
    compile ctx e t = compile ctx e s
  | .name span name, _, hquiet => by
    simp only [compile] at hquiet ⊢
    split at hquiet
    case h_1 => rfl
    case h_2 => exact absurd hquiet poisoned_not_quiet
  | .cast .., _, _ => by simp only [compile]
  | .paren _ e, h, hquiet => by
    simp only [compile] at hquiet ⊢
    exact compile_rigid e h hquiet
  | .unary span op e, h, hquiet => by
    simp only [compile] at hquiet ⊢
    by_cases hop : op = .not
    · rw [hop]
      rfl
    -- A negation hides its operand, but other signs are as rigid as what is under them.
    · have he : e.isRigid := by simpa [Expr.isRigid, hop] using h
      rw [literalOf?_of_isRigid he] at hquiet ⊢
      exact compileUnary_rigid (.inr (compile_rigid e he)) hquiet
  | .binary span op left right, h, hquiet => by
    simp only [compile] at hquiet ⊢
    refine compileBinary_rigid ?_ hquiet
    rw [Expr.isRigid, Bool.or_eq_true, Bool.or_eq_true, or_assoc] at h
    exact h.imp_right (Or.imp_right fun hleft =>
      ⟨isLiteral_of_isRigid left hleft, compile_rigid left hleft⟩)
termination_by structural e => e

end Weir.Lowering
