import Weir.Proofs.LowerStep
import Weir.Proofs.WrittenExpressions

/-!
# Compiling to the same code

Where an expression stands in the text has no influence on its code, and shows only in the places
of what is reported. So two expressions can stand for each other if they compile to the same code
with the same problems in the same order, whatever is in scope and whatever type is expected. This
passes from the operands to the operator, and from an expression to the part of a statement that it
is.

## Key results

- `Reported.Matches`: two compilations yield the same and report the same problems
- `compileBinary_matches`, `compileUnary_matches`, `compileUpdate_matches`: operators on operands
  that match
- `Interchangeable`: two expressions that compile alike
- `Interchangeable.discriminant`, `Interchangeable.initial` and their siblings: parts of statements
-/

namespace Weir.Lowering

open Weir.Code (Node)
open Weir.Source (AssignOp BinaryOp Declarator Expr Ident Literal PointerWidth Span Ty UnaryOp)

/-! ## Compilations that match -/

namespace Reported

variable {α β : Type}

/-- The two compilations yield the same, and report the same problems in order, if not in the same
    places. -/
structure Matches (r r' : Reported α) : Prop where
  value : r'.value = r.value
  problems : r'.reports.map Diagnostic.problem = r.reports.map Diagnostic.problem

theorem Matches.refl (r : Reported α) : r.Matches r := ⟨rfl, rfl⟩

private theorem matches_report (problem : Problem) (span span' : Span) :
    (report problem span).Matches (report problem span') :=
  ⟨rfl, rfl⟩

/-- What goes on from the same value. -/
theorem Matches.bind {r r' : Reported α} {k k' : α → Reported β} (h : r.Matches r')
    (hk : ∀ a, (k a).Matches (k' a)) : (r >>= k).Matches (r' >>= k') where
  value := by
    rw [value_bind, value_bind, h.value]
    exact (hk r.value).value
  problems := by
    have hreports : ∀ (q : Reported α) (j : α → Reported β),
        (q >>= j).reports = q.reports ++ (j q.value).reports := fun _ _ => rfl
    rw [hreports, hreports, List.map_append, List.map_append, h.value, h.problems,
      (hk r.value).problems]

/-- What follows a problem that may be reported. -/
private theorem Matches.after {r r' : Reported α} (h : r.Matches r') (b : Bool) (problem : Problem)
    (span : Span) :
    (if b then report problem span >>= fun _ => r else r).Matches
      (if b then report problem span >>= fun _ => r' else r') := by
  cases b with
  | true => exact (Matches.refl _).bind fun _ => h
  | false => exact h

end Reported

open Reported (matches_report)

section

variable {w : PointerWidth}

/-- The place of an implicit conversion is in its report only. -/
theorem convertImplicit_matches (n : Node) (s t : Ty) (span span' : Span) :
    (convertImplicit w n s t span).Matches (convertImplicit w n s t span') := by
  unfold convertImplicit
  cases checkImplicit w s t with
  | ok u => exact .refl _
  | error e =>
    cases e with
    | fromVoid target => exact (matches_report _ _ _).bind fun _ => .refl _
    | lossy source target => exact (matches_report _ _ _).bind fun _ => .refl _

/-- The place of an explicit conversion is in its report only. -/
theorem convertExplicit_matches (n : Node) (s t : Ty) (span span' : Span) :
    (convertExplicit w n s t span).Matches (convertExplicit w n s t span') := by
  unfold convertExplicit
  cases checkExplicit s t with
  | ok u => exact .refl _
  | error e => exact (matches_report _ _ _).bind fun _ => .refl _

/-- Poisoned expressions match if they are of one type and have one problem. -/
private theorem poisoned_matches (expected : Ty) (problem : Problem) (span span' : Span) :
    (poisoned w expected problem span).Matches (poisoned w expected problem span') :=
  (matches_report problem span span').bind fun _ => .refl _

end

/-! ## Operands -/

/-- The two operands compile alike for every type, and are literals alike. Where they stand does not
    matter. -/
structure Operand.Matches (e e' : Operand) : Prop where
  compile : ∀ expected, (e.compile expected).Matches (e'.compile expected)
  isLiteral : e'.isLiteral = e.isLiteral

section

variable {w : PointerWidth} {e e' left left' right right' : Operand}

/-- Matching operands have matching truth tests. -/
private theorem Operand.Matches.condition (h : e.Matches e') :
    (e.condition w).Matches (e'.condition w) :=
  (h.compile .bool).bind fun c => convertExplicit_matches c.node c.ty .bool e.span e'.span

/-- The code of a logical operator depends on the truth tests alone. -/
private theorem compileLogical_matches (isAnd : Bool) (hleft : left.Matches left')
    (hright : right.Matches right') :
    (compileLogical w isAnd left right).Matches (compileLogical w isAnd left' right') :=
  hleft.condition.bind fun _ => hright.condition.bind fun _ => .refl _

/-- An operand is compiled again under the same circumstances, and with a matching result. -/
private theorem Operand.Matches.retype (h : e.Matches e') (c : Compiled) (common : Ty) :
    (e.retype c common).Matches (e'.retype c common) := by
  unfold Operand.retype
  rw [h.isLiteral]
  split
  · exact h.compile common
  · exact .refl _

/-- Operands that match meet in the same type. -/
private theorem compileStrict_matches (op : BinaryOp) (hleft : left.Matches left')
    (hright : right.Matches right') (expected : Ty) (span span' : Span) :
    (compileStrict w op left right expected span).Matches
      (compileStrict w op left' right' expected span') := by
  unfold compileStrict
  dsimp only
  rw [hleft.isLiteral]
  apply (hleft.compile _).bind
  intro l
  apply (hright.compile _).bind
  intro r
  split
  · exact poisoned_matches expected .voidValue span span'
  -- Literals may be compiled again, for the type in which the operands meet.
  apply (hleft.retype l _).bind
  intro l
  apply (hright.retype r _).bind
  intro r
  split
  · exact poisoned_matches expected _ span span'
  · apply (convertImplicit_matches l.node l.ty _ left.span left'.span).bind
    intro ln
    apply (convertImplicit_matches r.node r.ty _ right.span right'.span).bind
    intro rn
    exact .refl _

/-- Operands that match give matching code for every binary operator. -/
theorem compileBinary_matches (op : BinaryOp) (hleft : left.Matches left')
    (hright : right.Matches right') (expected : Ty) (span span' : Span) :
    (compileBinary w op left right expected span).Matches
      (compileBinary w op left' right' expected span') := by
  unfold compileBinary
  split
  · exact compileLogical_matches true hleft hright
  · exact compileLogical_matches false hleft hright
  · exact compileStrict_matches op hleft hright expected span span'

/-- Operands that match give matching code for every unary operator. -/
theorem compileUnary_matches (op : UnaryOp) (h : e.Matches e') (literal? : Option Literal)
    (expected : Ty) (span span' : Span) :
    (compileUnary w op e literal? expected span).Matches
      (compileUnary w op e' literal? expected span') := by
  unfold compileUnary
  split
  -- A sign in front of a bare literal is compiled without the operand, so nothing is left to
  -- compare there.
  · exact h.compile expected
  · exact h.condition.bind fun test => .refl _
  · exact .refl _
  · exact .refl _
  · apply (h.compile expected).bind
    intro c
    dsimp only
    split
    · exact .refl _
    · split
      · exact .refl _
      · exact poisoned_matches expected _ span span'
  · apply (h.compile expected).bind
    intro c
    dsimp only
    split
    · exact .refl _
    · exact poisoned_matches expected _ span span'

/-- The variable of an assignment is the same, and so is its new value. -/
theorem compileUpdate_matches (ctx : Context) (op : AssignOp) (target : Ident)
    {value value' : Operand} (h : value.Matches value') (span span' : Span) :
    (compileUpdate ctx op target value span).Matches
      (compileUpdate ctx op target value' span') := by
  unfold compileUpdate
  cases ctx.bindings.find? target.name with
  | none => exact .refl _
  | some v =>
    have hassign : ∀ {r r' : Reported Compiled}, r.Matches r' →
        (r >>= fun c => convertImplicit ctx.width c.node c.ty v.ty value.span >>= fun node =>
          pure (some (v, node))).Matches
        (r' >>= fun c => convertImplicit ctx.width c.node c.ty v.ty value'.span >>= fun node =>
          pure (some (v, node))) := by
      intro r r' hr
      apply hr.bind
      intro c
      apply (convertImplicit_matches c.node c.ty v.ty value.span value'.span).bind
      exact fun node => .refl _
    -- An assignment to a constant is reported where the target stands, which is the same.
    apply Reported.Matches.after
    cases op.operator? with
    | none => exact hassign (h.compile v.ty)
    | some op => exact hassign (compileBinary_matches op ⟨fun _ => .refl _, rfl⟩ h v.ty span span')

end

/-! ## Expressions that compile alike -/

/-- The two expressions compile alike, whatever is in scope and whether or not their value is
    used. -/
structure Interchangeable (e e' : Expr) : Prop where
  compile : ∀ ctx expected, (compile ctx e expected).Matches (compile ctx e' expected)
  discarded : ∀ ctx, (compileDiscarded ctx e).Matches (compileDiscarded ctx e')

namespace Interchangeable

variable {e e' : Expr} (h : Interchangeable e e') (ctx : Context)

include h

/-- Interchangeable expressions are tested alike. -/
theorem condition : (compileCondition ctx e).Matches (compileCondition ctx e') :=
  (h.compile ctx .bool).bind fun c => convertExplicit_matches c.node c.ty .bool e.span e'.span

/-- Interchangeable expressions are discarded alike. -/
theorem dropped : (compileDropped ctx e).Matches (compileDropped ctx e') :=
  (h.compile ctx .void).bind fun _ => .refl _

/-- Interchangeable expressions are returned alike. -/
theorem returned (result : Ty) :
    (compileReturned ctx e result).Matches (compileReturned ctx e' result) :=
  (h.compile ctx result).bind fun c => convertImplicit_matches c.node c.ty result e.span e'.span

/-- Interchangeable expressions are compared with the clauses of a switch alike. -/
theorem guard (compared : Ty) :
    (compileGuard ctx compared e).Matches (compileGuard ctx compared e') :=
  (h.compile ctx compared).bind fun c =>
    convertExplicit_matches c.node c.ty compared e.span e'.span

/-- A discriminant is compared in the same type. -/
theorem discriminant : (compileDiscriminant ctx e).Matches (compileDiscriminant ctx e') := by
  apply (h.compile ctx .void).bind
  intro c
  apply (convertExplicit_matches c.node c.ty _ e.span e'.span).bind
  exact fun value => .refl _

end Interchangeable

/-- A variable gets the same initial value and the same type. -/
theorem compileInitial_matches {f : Expr → Expr} (ctx : Context) (d : Declarator)
    (declared : Option Ty) (h : ∀ e ∈ d.exprs, Interchangeable e (f e)) :
    (compileInitial ctx d declared).Matches (compileInitial ctx (d.mapExprs f) declared) := by
  obtain ⟨ident, _, init⟩ := d
  unfold compileInitial
  -- With a declared type the value is converted to it. Without one the type of the value is taken,
  -- and `i32` where it is void.
  cases init with
  | none => exact .refl _
  | some e =>
    have he : Interchangeable e (f e) := h e List.mem_cons_self
    cases declared with
    | some t =>
      apply (he.compile ctx t).bind
      intro c
      apply (convertImplicit_matches c.node c.ty t e.span (f e).span).bind
      exact fun node => .refl _
    | none =>
      apply (he.compile ctx .void).bind
      intro c
      split
      · apply (convertExplicit_matches c.node c.ty .i32 e.span (f e).span).bind
        exact fun node => .refl _
      · exact .refl _

/-- An expression that may be missing. -/
theorem mapM_matches {f : Expr → Expr} {compiled : Expr → Reported Node} (o : Option Expr)
    (h : ∀ e ∈ o.toList, (compiled e).Matches (compiled (f e))) :
    (o.mapM compiled).Matches ((o.map f).mapM compiled) := by
  cases o with
  | none => exact .refl _
  | some e => exact (h e List.mem_cons_self).bind fun node => .refl _

end Weir.Lowering
