import Weir.Proofs.LowerStep
import Weir.Proofs.WrittenTypes

/-!
# Expressions with `usize` resolved

`usize` stands for the unsigned integer that is as wide as a pointer, and compiling an expression
never tells the two apart: the same expression with every `usize` replaced by that integer compiles
to the same code, and its problems are the same after the replacement. What is left to compile then
depends on the width of a pointer no more, so the second compilation may be for any width.

## Key results

- `Ty.resolve_eq_iff`: what a type is replaced by
- `Reported.Mirrors`: one compilation mirrors another one with its types resolved
- `coerce_resolve`, `unify_resolve`, `compileLiteral_resolve`: the places that resolve types
- `compile_mirrors`: compiling an expression with its types resolved
-/

namespace Weir

open Weir.Code (Node)

/-! ## Types -/

namespace Source.Ty

variable (w w' : PointerWidth) (t : Ty)

/-- Only `usize` is replaced: by `u32` where pointers have 32 bits, and by `u64` where they have
    64. -/
theorem resolve_eq_iff {u : Ty} : t.resolve w = u ↔
    (t = .usize ∧ (w = .w32 ∧ u = .u32 ∨ w = .w64 ∧ u = .u64)) ∨ (t ≠ .usize ∧ u = t) := by
  cases w <;> cases t <;> simp [resolve, eq_comm]

/-- A resolved type is the same for any width. -/
@[simp] theorem resolve_of_resolve : (t.resolve w).resolve w' = t.resolve w := by
  cases w <;> cases w' <;> cases t <;> rfl

@[simp] theorem slot_of_resolve : (t.resolve w).slot w' = t.slot w := by
  simp only [slot, resolve_of_resolve]

@[simp] theorem intSlot_of_resolve : (t.resolve w).intSlot w' = t.intSlot w := by
  simp only [intSlot, resolve_of_resolve]

/-- A resolved type has the same bits at either width. -/
@[simp] theorem bits_of_resolve : (t.resolve w).bits w' = t.bits w := by
  cases w <;> cases w' <;> cases t <;> rfl

/-- No other type resolves to that of no value. -/
@[simp] theorem resolve_eq_void : t.resolve w = .void ↔ t = .void := by
  cases w <;> cases t <;> simp [resolve]

end Source.Ty

namespace Lowering

open Weir.Source (AssignOp BinaryOp Declarator Expr Ident Literal PointerWidth Span Ty UnaryOp)

/-! ## Replaced types in what lowering works on -/

section

variable (f : Ty → Ty)

/-- The problem with each type in it replaced. -/
def Problem.mapTypes : Problem → Problem
  | .implicitConversion source target => .implicitConversion (f source) (f target)
  | .invalidOperand op t => .invalidOperand op (f t)
  | problem => problem

/-- The diagnostic with each type in it replaced, in the same place. -/
def Diagnostic.mapTypes (d : Diagnostic) : Diagnostic := ⟨d.problem.mapTypes f, d.span⟩

/-- The conversion that is refused, with each type in it replaced. -/
def ConversionError.mapTypes : ConversionError → ConversionError
  | .fromVoid target => .fromVoid (f target)
  | .lossy source target => .lossy (f source) (f target)

/-- The variable with its type replaced. -/
def Variable.mapTypes (v : Variable) : Variable := { v with ty := f v.ty }

/-- The scopes with the types of all variables replaced. -/
def Variables.mapTypes (scopes : Variables) : Variables :=
  scopes.map fun scope => scope.map fun b => (b.1, b.2.mapTypes f)

/-- The signature with each type in it replaced. -/
def Signature.mapTypes (s : Signature) : Signature :=
  { s with params := s.params.map f, result := f s.result }

/-- The table with each type in it replaced. -/
def FunctionTable.mapTypes (t : FunctionTable) : FunctionTable :=
  ⟨t.entries.map fun e => (e.1, e.2.mapTypes f)⟩

/-- The code with the type of its value replaced. -/
def Compiled.mapTypes (c : Compiled) : Compiled := { c with ty := f c.ty }

end

variable {f : Ty → Ty}

/-- Changing the values of a table does not change where a name is found. -/
theorem lookup_map {α : Type} (g : α → α) (l : List (String × α)) (name : String) :
    (l.map fun b => (b.1, g b.2)).lookup name = (l.lookup name).map g := by
  induction l with
  | nil => rfl
  | cons b l ih =>
    rw [List.map_cons, List.lookup_cons, List.lookup_cons, ih]
    cases name == b.1 <;> rfl

/-- A name is found in the same scope, and its variable has the changed type. -/
@[simp] theorem Variables.find?_mapTypes (scopes : Variables) (name : String) :
    (scopes.mapTypes f).find? name = (scopes.find? name).map (Variable.mapTypes f) := by
  unfold Variables.find? Variables.mapTypes
  induction scopes with
  | nil => rfl
  | cons scope scopes ih =>
    rw [List.map_cons, List.findSome?_cons, List.findSome?_cons, lookup_map]
    cases List.lookup name scope with
    | some v => rfl
    | none => exact ih

/-- A function is found by its name, and its signature has the changed types. -/
@[simp] theorem FunctionTable.find?_mapTypes (t : FunctionTable) (name : String) :
    (t.mapTypes f).find? name = (t.find? name).map (Signature.mapTypes f) :=
  lookup_map (Signature.mapTypes f) t.entries name

/-! ## The places that resolve types -/

section

variable (w w' : PointerWidth)

/-- Between resolved types a conversion does not ask for the width of a pointer. -/
private theorem coerceResolved_resolve (n : Node) (s t : Ty) :
    coerceResolved w' n (s.resolve w) (t.resolve w) =
      coerceResolved w n (s.resolve w) (t.resolve w) := by
  simp only [coerceResolved, changeSlot, Ty.slot_of_resolve, Ty.intSlot_of_resolve,
    Ty.bits_of_resolve]

/-- A conversion depends on its two types only after resolving. -/
theorem coerce_resolve (n : Node) (s t : Ty) :
    coerce w' n (s.resolve w) (t.resolve w) = coerce w n s t := by
  rw [coerce, coerce, Ty.resolve_of_resolve, Ty.resolve_of_resolve, coerceResolved_resolve]

/-- Whether a conversion loses values is decided between resolved types. -/
private theorem lossless_resolve (s t : Ty) :
    lossless w' (s.resolve w) (t.resolve w) = lossless w s t := by
  rw [lossless, lossless, Ty.resolve_of_resolve, Ty.resolve_of_resolve]

/-- An implicit conversion is refused alike, and the refusal names the resolved types. -/
private theorem checkImplicit_resolve (s t : Ty) :
    checkImplicit w' (s.resolve w) (t.resolve w) =
      (checkImplicit w s t).mapError (ConversionError.mapTypes (Ty.resolve w)) := by
  rw [checkImplicit, checkImplicit, Ty.isVoid_resolve, Ty.isVoid_resolve, lossless_resolve]
  split
  · rfl
  · split <;> rfl

/-- An explicit conversion is refused alike. -/
private theorem checkExplicit_resolve (s t : Ty) :
    checkExplicit (s.resolve w) (t.resolve w) =
      (checkExplicit s t).mapError (ConversionError.mapTypes (Ty.resolve w)) := by
  simp only [checkExplicit, Ty.isVoid_resolve]
  split <;> rfl

/-- Discriminants and guards are compared in a resolved type. -/
private theorem resolve_discriminantType (t : Ty) :
    (discriminantType w t).resolve w = discriminantType w t := by
  unfold discriminantType
  cases t.resolve w <;> rfl

/-- A switch compares in the same type. -/
private theorem discriminantType_resolve (t : Ty) :
    discriminantType w' (t.resolve w) = discriminantType w t := by
  rw [discriminantType, discriminantType, Ty.resolve_of_resolve]

/-- The type that stands in for another one is resolved already. -/
private theorem resolve_fallbackType (t : Ty) :
    (fallbackType w t).resolve w = fallbackType w t := by
  unfold fallbackType
  split
  · rfl
  · exact Ty.resolve_resolve w t

/-- What stands in for a resolved type is what stands in for the type. -/
private theorem fallbackType_resolve (t : Ty) :
    fallbackType w' (t.resolve w) = fallbackType w t := by
  rw [fallbackType, fallbackType, Ty.isVoid_resolve, Ty.resolve_of_resolve]

/-- Operands meet in a resolved type. -/
private theorem resolve_unify (a b : Ty) : (unify w a b).resolve w = unify w a b := by
  have ha : (a.resolve w).resolve w = a.resolve w := Ty.resolve_resolve w a
  have hb : (b.resolve w).resolve w = b.resolve w := Ty.resolve_resolve w b
  unfold unify
  dsimp only
  generalize a.resolve w = a at ha ⊢
  generalize b.resolve w = b at hb ⊢
  -- Each choice is one of the two types, or one that is fixed.
  repeat' split
  all_goals first | exact ha | exact hb | rfl

/-- Two types meet where their resolved types do. -/
theorem unify_resolve (a b : Ty) :
    unify w' (a.resolve w) (b.resolve w) = unify w a b := by
  simp only [unify, Ty.resolve_of_resolve, Ty.bits_of_resolve]

/-- Literals are given a resolved type. -/
private theorem resolve_compileLiteral (literal : Literal) (t : Ty) :
    (compileLiteral w literal t).ty.resolve w = (compileLiteral w literal t).ty := by
  cases literal with
  | boolean value => rfl
  | float value =>
    simp only [compileLiteral]
    split <;> rfl
  | int value =>
    simp only [compileLiteral]
    split
    · exact Ty.resolve_resolve w t
    · split <;> rfl

/-- A literal compiles alike for a type and for what it resolves to. -/
theorem compileLiteral_resolve (literal : Literal) (t : Ty) :
    compileLiteral w' literal (t.resolve w) = compileLiteral w literal t := by
  simp only [compileLiteral, Ty.resolve_of_resolve]

end

/-! ## Compilations side by side -/

namespace Reported

variable {α β γ δ : Type} {w : PointerWidth} {g : α → β}

/-- The second compilation yields what the first one does, up to `g`, and reports the same problems
    in the same places, with the types in them resolved. -/
structure Mirrors (w : PointerWidth) (g : α → β) (r : Reported α) (r' : Reported β) : Prop where
  value : r'.value = g r.value
  reports : r'.reports = r.reports.map (Diagnostic.mapTypes (Ty.resolve w))

private theorem mirrors_pure (g : α → β) (a : α) : Mirrors w g (pure a) (pure (g a)) :=
  ⟨rfl, rfl⟩

/-- Code of a resolved type mirrors itself. -/
private theorem mirrors_compiled {c : Compiled} (h : c.ty.resolve w = c.ty) :
    Mirrors w (Compiled.mapTypes (Ty.resolve w)) (pure c) (pure c) where
  value := by rw [value_pure, Compiled.mapTypes, h]
  reports := rfl

private theorem mirrors_report (problem : Problem) (span : Span) :
    Mirrors w id (report problem span) (report (problem.mapTypes (Ty.resolve w)) span) :=
  ⟨rfl, rfl⟩

/-- Two steps mirror two others where the second ones mirror each other on mirrored values. -/
theorem Mirrors.bind {g' : γ → δ} {r : Reported α} {r' : Reported β} {k : α → Reported γ}
    {k' : β → Reported δ} (h : r.Mirrors w g r')
    (hk : (k r.value).Mirrors w g' (k' (g r.value))) : (r >>= k).Mirrors w g' (r' >>= k') where
  value := by rw [value_bind, value_bind, h.value, hk.value]
  reports := by
    have hreports : ∀ {ε ζ : Type} (q : Reported ε) (j : ε → Reported ζ),
        (q >>= j).reports = q.reports ++ (j q.value).reports := fun _ _ => rfl
    rw [hreports, hreports, h.value, h.reports, hk.reports, List.map_append]

/-- What follows a problem that may be reported. -/
private theorem Mirrors.after {r : Reported α} {r' : Reported β} (h : r.Mirrors w g r') (b : Bool)
    (problem : Problem) (span : Span) :
    Mirrors w g (if b then report problem span >>= fun _ => r else r)
      (if b then report (problem.mapTypes (Ty.resolve w)) span >>= fun _ => r' else r') := by
  cases b with
  | true => exact (mirrors_report problem span).bind h
  | false => exact h

end Reported

open Reported (mirrors_pure mirrors_compiled mirrors_report)

section

variable {w w' : PointerWidth}

/-- A conversion mirrors the one between the resolved types. -/
private theorem convertImplicit_mirrors (n : Node) (s t : Ty) (span : Span) :
    (convertImplicit w n s t span).Mirrors w id
      (convertImplicit w' n (s.resolve w) (t.resolve w) span) := by
  unfold convertImplicit
  rw [checkImplicit_resolve, coerce_resolve]
  cases checkImplicit w s t with
  | ok u => exact mirrors_pure id _
  | error e =>
    cases e with
    | fromVoid target => exact (mirrors_report _ _).bind (mirrors_pure id _)
    | lossy source target => exact (mirrors_report _ _).bind (mirrors_pure id _)

/-- Explicit conversions between resolved types compile alike. -/
private theorem convertExplicit_mirrors (n : Node) (s t : Ty) (span : Span) :
    (convertExplicit w n s t span).Mirrors w id
      (convertExplicit w' n (s.resolve w) (t.resolve w) span) := by
  unfold convertExplicit
  rw [checkExplicit_resolve, coerce_resolve]
  cases checkExplicit s t with
  | ok u => exact mirrors_pure id _
  | error e => exact (mirrors_report _ _).bind (mirrors_pure id _)

/-- What stands in for a value does so in the resolved type. -/
private theorem poisoned_mirrors (expected : Ty) (problem : Problem) (span : Span) :
    (poisoned w expected problem span).Mirrors w (Compiled.mapTypes (Ty.resolve w))
      (poisoned w' (expected.resolve w) (problem.mapTypes (Ty.resolve w)) span) := by
  unfold poisoned
  rw [fallbackType_resolve]
  exact (mirrors_report _ _).bind (mirrors_compiled (resolve_fallbackType w expected))

end

/-! ## Operands -/

/-- The second operand is the first one with its types resolved. A literal has a resolved type
    already. -/
structure Operand.Mirrors (w : PointerWidth) (e e' : Operand) : Prop where
  compile : ∀ expected, (e.compile expected).Mirrors w (Compiled.mapTypes (Ty.resolve w))
    (e'.compile (expected.resolve w))
  isLiteral : e'.isLiteral = e.isLiteral
  span : e'.span = e.span
  resolved : e.isLiteral →
    ∀ expected, (e.compile expected).value.ty.resolve w = (e.compile expected).value.ty

section

variable {w w' : PointerWidth} {e e' left left' right right' : Operand}

/-- Mirrored operands make the same condition. -/
private theorem Operand.Mirrors.condition (h : e.Mirrors w e') :
    (e.condition w).Mirrors w id (e'.condition w') := by
  unfold Operand.condition
  rw [h.span]
  exact (h.compile .bool).bind (convertExplicit_mirrors _ _ .bool _)

/-- The short-circuit operators take only conditions. -/
private theorem compileLogical_mirrors (isAnd : Bool) (hleft : left.Mirrors w left')
    (hright : right.Mirrors w right') :
    (compileLogical w isAnd left right).Mirrors w (Compiled.mapTypes (Ty.resolve w))
      (compileLogical w' isAnd left' right') := by
  refine hleft.condition.bind (hright.condition.bind ?_)
  exact mirrors_compiled rfl

/-- Only literals are compiled again for another type, and a literal has a resolved type. -/
private theorem Operand.Mirrors.retype (h : e.Mirrors w e') (expected : Ty) {common : Ty}
    (hcommon : common.resolve w = common) :
    (e.retype (e.compile expected).value common).Mirrors w (Compiled.mapTypes (Ty.resolve w))
      (e'.retype ((e.compile expected).value.mapTypes (Ty.resolve w)) common) := by
  unfold Operand.retype
  rw [h.isLiteral]
  by_cases hliteral : e.isLiteral = true
  -- A literal compiles to a resolved type, so both sides ask the same of the common one.
  · have hty : ((e.compile expected).value.mapTypes (Ty.resolve w)).ty =
        (e.compile expected).value.ty := h.resolved hliteral expected
    rw [hty]
    by_cases hne : (e.compile expected).value.ty ≠ common
    · rw [if_pos ⟨hne, hliteral⟩, if_pos ⟨hne, hliteral⟩]
      simpa only [hcommon] using h.compile common
    · rw [if_neg fun hboth => hne hboth.1, if_neg fun hboth => hne hboth.1]
      exact mirrors_pure _ _
  · rw [if_neg fun hboth => hliteral hboth.2, if_neg fun hboth => hliteral hboth.2]
    exact mirrors_pure _ _

/-- The operands of a strict operator meet in the same resolved type. -/
private theorem compileStrict_mirrors (op : BinaryOp) (hleft : left.Mirrors w left')
    (hright : right.Mirrors w right') (expected : Ty) (span : Span) :
    (compileStrict w op left right expected span).Mirrors w (Compiled.mapTypes (Ty.resolve w))
      (compileStrict w' op left' right' (expected.resolve w) span) := by
  unfold compileStrict
  -- The hints are resolved where they are passed on, so they mirror each other.
  have hhint : (if op.isComparison then Ty.void else expected.resolve w) =
      Ty.resolve w (if op.isComparison then .void else expected) := by
    split <;> rfl
  dsimp only
  rw [hhint, hleft.isLiteral]
  generalize (if op.isComparison then Ty.void else expected) = hint
  refine (hleft.compile hint).bind ?_
  have hhint' : (if left.isLiteral = true then hint.resolve w
      else ((left.compile hint).value.mapTypes (Ty.resolve w)).ty) =
      Ty.resolve w (if left.isLiteral then hint else (left.compile hint).value.ty) := by
    split <;> rfl
  rw [hhint']
  generalize (if left.isLiteral = true then hint else (left.compile hint).value.ty) = hint'
  refine (hright.compile hint').bind ?_
  -- Both sides meet at the same type, and it is resolved.
  have hcommon : unify w' ((left.compile hint).value.mapTypes (Ty.resolve w)).ty
      ((right.compile hint').value.mapTypes (Ty.resolve w)).ty =
      unify w (left.compile hint).value.ty (right.compile hint').value.ty :=
    unify_resolve w w' _ _
  have hresolved := resolve_unify w (left.compile hint).value.ty (right.compile hint').value.ty
  rw [hcommon]
  generalize unify w (left.compile hint).value.ty (right.compile hint').value.ty = common
    at hresolved
  by_cases hvoid : common.isVoid = true
  · rw [if_pos hvoid, if_pos hvoid]
    exact poisoned_mirrors expected .voidValue span
  rw [if_neg hvoid, if_neg hvoid]
  refine (hleft.retype hint hresolved).bind ((hright.retype hint' hresolved).bind ?_)
  -- From here on the operands are in one type, which is resolved.
  have hoperand : Ty.resolve w (if (decide (common = .bool) && !op.isComparison) = true then .i32
      else common) =
      (if (decide (common = .bool) && !op.isComparison) = true then .i32 else common) := by
    split
    · rfl
    · exact hresolved
  generalize (if (decide (common = .bool) && !op.isComparison) = true then Ty.i32 else common) =
    operand at hoperand
  cases operatorFor? op operand with
  | none =>
    dsimp only
    have hproblem : Problem.mapTypes (Ty.resolve w) (.invalidOperand op.symbol operand) =
        .invalidOperand op.symbol operand := by
      rw [Problem.mapTypes, hoperand]
    have hpoisoned := @poisoned_mirrors w w' expected
      (.invalidOperand op.symbol operand) span
    rwa [hproblem] at hpoisoned
  | some code =>
    dsimp only
    rw [hleft.span, hright.span]
    -- The operator works on the slot of a resolved type.
    have hslot : operand.slot w' = operand.slot w := by
      rw [← hoperand, Ty.slot_of_resolve, Ty.slot_resolve]
    rw [hslot]
    have hconvert : ∀ (c : Compiled) (span : Span),
        (convertImplicit w c.node c.ty operand span).Mirrors w id
          (convertImplicit w' c.node (c.ty.resolve w) operand span) := by
      intro c span
      have h := @convertImplicit_mirrors w w' c.node c.ty operand span
      rwa [hoperand] at h
    refine (hconvert _ _).bind ((hconvert _ _).bind (mirrors_compiled ?_))
    split
    · rfl
    · exact hoperand

/-- Binary operators on mirrored operands compile alike. -/
private theorem compileBinary_mirrors (op : BinaryOp) (hleft : left.Mirrors w left')
    (hright : right.Mirrors w right') (expected : Ty) (span : Span) :
    (compileBinary w op left right expected span).Mirrors w (Compiled.mapTypes (Ty.resolve w))
      (compileBinary w' op left' right' (expected.resolve w) span) := by
  unfold compileBinary
  split
  · exact compileLogical_mirrors true hleft hright
  · exact compileLogical_mirrors false hleft hright
  · exact compileStrict_mirrors op hleft hright expected span

/-- The minus sign and the complement take the type of their operand, resolved. -/
private theorem compileUnary_mirrors (op : UnaryOp) (h : e.Mirrors w e') (literal? : Option Literal)
    (expected : Ty) (span : Span) :
    (compileUnary w op e literal? expected span).Mirrors w (Compiled.mapTypes (Ty.resolve w))
      (compileUnary w' op e' literal? (expected.resolve w) span) := by
  have hliteral : ∀ literal : Literal,
      Reported.Mirrors w (Compiled.mapTypes (Ty.resolve w))
        (pure (compileLiteral w literal expected))
        (pure (compileLiteral w' literal (expected.resolve w))) := by
    intro literal
    rw [compileLiteral_resolve]
    exact mirrors_compiled (resolve_compileLiteral w literal expected)
  -- The problem is reported with the type resolved on both sides.
  have hinvalid : ∀ c : Compiled,
      (poisoned w expected (.invalidOperand op.symbol (c.ty.resolve w)) span).Mirrors w
        (Compiled.mapTypes (Ty.resolve w))
        (poisoned w' (expected.resolve w) (.invalidOperand op.symbol (c.ty.resolve w)) span) := by
    intro c
    have h := @poisoned_mirrors w w' expected
      (.invalidOperand op.symbol (c.ty.resolve w)) span
    rwa [Problem.mapTypes, Ty.resolve_resolve] at h
  unfold compileUnary
  split
  · exact h.compile expected
  · exact h.condition.bind (mirrors_compiled rfl)
  · exact hliteral _
  · exact hliteral _
  · refine (h.compile expected).bind ?_
    simp only [Compiled.mapTypes, Ty.resolve_of_resolve, Ty.slot_of_resolve]
    split
    · exact mirrors_compiled (Ty.resolve_resolve w _)
    · split
      · exact mirrors_compiled (Ty.resolve_resolve w _)
      · exact hinvalid _
  · refine (h.compile expected).bind ?_
    simp only [Compiled.mapTypes, Ty.resolve_of_resolve, Ty.slot_of_resolve]
    split
    · exact mirrors_compiled (Ty.resolve_resolve w _)
    · exact hinvalid _

end

/-! ## Expressions -/

/-- The second context is the first one with its types resolved for the width that it has. -/
structure Context.Mirrors (w : PointerWidth) (ctx ctx' : Context) : Prop where
  width : ctx.width = w
  functions : ctx'.functions = ctx.functions.mapTypes (Ty.resolve w)
  bindings : ctx'.bindings = ctx.bindings.mapTypes (Ty.resolve w)

@[simp] theorem span_mapTypes (e : Expr) : (e.mapTypes f).span = e.span := by
  cases e <;> rfl

private theorem length_mapTypesAll (es : List Expr) :
    (Expr.mapTypesAll f es).length = es.length := by
  induction es with
  | nil => rfl
  | cons e es ih => rw [Expr.mapTypesAll, List.length_cons, List.length_cons, ih]

/-- A literal has no type in it to change. -/
@[simp] theorem isLiteral_mapTypes : (e : Expr) → isLiteral (e.mapTypes f) = isLiteral e
  | .paren _ inner => by
    simp only [Expr.mapTypes, isLiteral]
    exact isLiteral_mapTypes inner
  | .unary _ op operand => by
    -- A sign looks through to its operand, the other operators do not.
    cases op with
    | minus | plus =>
      simp only [Expr.mapTypes, isLiteral]
      exact isLiteral_mapTypes operand
    | not | bitNot => simp only [Expr.mapTypes, isLiteral]
  | .literal .. | .name .. | .binary .. | .assign .. | .call .. | .cast .. => by
    simp only [Expr.mapTypes, isLiteral]

@[simp] theorem literalOf?_mapTypes (e : Expr) : literalOf? (e.mapTypes f) = literalOf? e := by
  cases e <;> rfl

section

variable {ctx ctx' : Context} {w : PointerWidth}

/-- What is under a minus sign is given a resolved type. -/
private theorem resolve_compileMinus (e : Operand) (literal? : Option Literal) (expected : Ty)
    (span : Span) :
    (compileUnary w .minus e literal? expected span).value.ty.resolve w =
      (compileUnary w .minus e literal? expected span).value.ty := by
  unfold compileUnary
  split
  next hop => cases hop
  next hop => cases hop
  -- The sign is taken into an integer or a float.
  next => exact resolve_compileLiteral w _ expected
  next => exact resolve_compileLiteral w _ expected
  next =>
    rw [Reported.value_bind]
    dsimp only
    split
    · exact Ty.resolve_resolve w _
    · split
      · exact Ty.resolve_resolve w _
      · exact resolve_fallbackType w expected
  next hop => cases hop

/-- Literals are compiled to code of a resolved type, also under signs and in parentheses. -/
theorem resolve_compile_of_isLiteral : (e : Expr) → isLiteral e → ∀ expected,
    (compile ctx e expected).value.ty.resolve ctx.width = (compile ctx e expected).value.ty
  | .literal _ value, _, expected => by
    simp only [compile, Reported.value_pure]
    exact resolve_compileLiteral ctx.width value expected
  | .paren _ inner, h, expected => by
    simp only [compile]
    exact resolve_compile_of_isLiteral inner h expected
  | .unary _ .plus operand, h, expected => by
    simp only [compile, compileUnary]
    exact resolve_compile_of_isLiteral operand h expected
  | .unary _ .minus operand, _, expected => by
    simp only [compile]
    exact resolve_compileMinus _ _ expected _

/-- Reading a variable of the resolved type reads the same slot. -/
private theorem readVariable_resolve (w' : PointerWidth) (v : Variable) :
    readVariable w' (v.mapTypes (Ty.resolve w)) =
      (readVariable w v).mapTypes (Ty.resolve w) := by
  simp only [readVariable, Variable.mapTypes, Compiled.mapTypes, Ty.slot_of_resolve]

/-- The variable of an assignment has its type resolved, its new value is the same. -/
private theorem compileUpdate_mirrors (hctx : ctx.Mirrors w ctx') (op : AssignOp) (target : Ident)
    {value value' : Operand} (hvalue : value.Mirrors w value') (span : Span) :
    (compileUpdate ctx op target value span).Mirrors w
      (Option.map fun r => (r.1.mapTypes (Ty.resolve w), r.2))
      (compileUpdate ctx' op target value' span) := by
  unfold compileUpdate
  rw [hctx.bindings, Variables.find?_mapTypes]
  cases ctx.bindings.find? target.name with
  | none =>
    have hunknown := mirrors_report (w := w) (.unknownIdentifier target.name) target.span
    exact hunknown.bind (mirrors_pure _ none)
  | some v =>
    refine Reported.Mirrors.after ?_ v.isConst (.assignToConst target.name) target.span
    -- The rest is the same for a plain and for a compound assignment.
    have hassign : ∀ {r r' : Reported Compiled},
        r.Mirrors w (Compiled.mapTypes (Ty.resolve w)) r' →
        Reported.Mirrors w (Option.map fun r => (r.1.mapTypes (Ty.resolve w), r.2))
          (r >>= fun c => convertImplicit ctx.width c.node c.ty v.ty value.span >>= fun node =>
            pure (some (v, node)))
          (r' >>= fun c => convertImplicit ctx'.width c.node c.ty (v.ty.resolve w) value'.span >>=
            fun node => pure (some (v.mapTypes (Ty.resolve w), node))) := by
      intro r r' hr
      rw [hctx.width, hvalue.span]
      refine hr.bind ((convertImplicit_mirrors _ _ _ _).bind ?_)
      exact mirrors_pure _ (some (v, _))
    cases op.operator? with
    | none => exact hassign (hvalue.compile v.ty)
    | some op =>
      refine hassign ?_
      rw [hctx.width]
      -- The variable is the left operand of a compound assignment.
      have hcurrent : Operand.Mirrors w ⟨fun _ => pure (readVariable w v), false, target.span⟩
          ⟨fun _ => pure (readVariable ctx'.width (v.mapTypes (Ty.resolve w))), false,
            target.span⟩ := by
        refine ⟨fun _ => ?_, rfl, rfl, fun h => nomatch h⟩
        rw [readVariable_resolve]
        exact mirrors_pure _ _
      exact compileBinary_mirrors op hcurrent hvalue v.ty span

/-- An expression as an operand, if compiling it mirrors. -/
private theorem operand_mirrors (hctx : ctx.Mirrors w ctx') {e : Expr}
    (h : ∀ expected, (compile ctx e expected).Mirrors w (Compiled.mapTypes (Ty.resolve w))
      (compile ctx' (e.mapTypes (Ty.resolve w)) (expected.resolve w))) :
    Operand.Mirrors w (.ofExpr ctx e) (.ofExpr ctx' (e.mapTypes (Ty.resolve w))) where
  compile := h
  isLiteral := isLiteral_mapTypes e
  span := span_mapTypes e
  resolved hliteral expected := by
    rw [← hctx.width]
    exact resolve_compile_of_isLiteral e hliteral expected

mutual

/-- Compiling an expression with its types resolved yields the same code, in the resolved type. The
    induction is on the expression. -/
theorem compile_mirrors (hctx : ctx.Mirrors w ctx') : (e : Expr) → (expected : Ty) →
    (compile ctx e expected).Mirrors w (Compiled.mapTypes (Ty.resolve w))
      (compile ctx' (e.mapTypes (Ty.resolve w)) (expected.resolve w))
  | .literal _ value, expected => by
    simp only [Expr.mapTypes, compile]
    rw [hctx.width, compileLiteral_resolve]
    exact mirrors_compiled (resolve_compileLiteral w value expected)
  | .paren _ inner, expected => by
    simp only [Expr.mapTypes, compile]
    exact compile_mirrors hctx inner expected
  | .name span name, expected => by
    simp only [Expr.mapTypes, compile]
    rw [hctx.bindings, Variables.find?_mapTypes, hctx.width]
    cases ctx.bindings.find? name with
    | none => exact poisoned_mirrors expected (.unknownIdentifier name) span
    | some v =>
      dsimp only [Option.map_some]
      rw [readVariable_resolve]
      exact mirrors_pure _ _
  | .unary span op operand, expected => by
    simp only [Expr.mapTypes, compile]
    rw [hctx.width, literalOf?_mapTypes]
    exact compileUnary_mirrors op (operand_mirrors hctx fun t => compile_mirrors hctx operand t) _
      expected span
  | .binary span op left right, expected => by
    simp only [Expr.mapTypes, compile]
    rw [hctx.width]
    exact compileBinary_mirrors op (operand_mirrors hctx fun t => compile_mirrors hctx left t)
      (operand_mirrors hctx fun t => compile_mirrors hctx right t) expected span
  | .assign span op target value, expected => by
    simp only [Expr.mapTypes, compile]
    have hvalue := operand_mirrors hctx fun t => compile_mirrors hctx value t
    refine (compileUpdate_mirrors hctx op target hvalue span).bind ?_
    cases (compileUpdate ctx op target (.ofExpr ctx value) span).value with
    | none => exact mirrors_compiled rfl
    | some update =>
      obtain ⟨v, node⟩ := update
      -- The variable is read again from the slot of its type.
      have hslot : (v.ty.resolve w).slot ctx'.width = v.ty.slot ctx.width := by
        rw [hctx.width, Ty.slot_of_resolve]
      simp only [Option.map_some, Variable.mapTypes, hslot]
      exact mirrors_pure _ _
  | .call span callee args, expected => by
    simp only [Expr.mapTypes, compile]
    rw [hctx.functions, FunctionTable.find?_mapTypes, hctx.width]
    cases ctx.functions.find? callee.name with
    | none => exact poisoned_mirrors expected (.unknownFunction callee.name) callee.span
    | some s =>
      -- The same number of arguments is compared with the same number of parameters.
      have hlength : (Expr.mapTypesAll (Ty.resolve w) args).length = args.length :=
        length_mapTypesAll args
      simp only [Option.map_some, Signature.mapTypes, List.length_map, hlength,
        Ty.slot_of_resolve]
      split
      · exact poisoned_mirrors expected
          (.arityMismatch callee.name s.params.length args.length) span
      · exact (compileArgs_mirrors hctx args s.params).bind (mirrors_pure _ _)
  | .cast _ operand t, _ => by
    simp only [Expr.mapTypes, compile]
    rw [hctx.width, span_mapTypes]
    refine (compile_mirrors hctx operand t).bind ((convertExplicit_mirrors _ _ _ _).bind ?_)
    exact mirrors_pure _ _
termination_by structural e => e

/-- The arguments of a call, given the types of the parameters. -/
private theorem compileArgs_mirrors (hctx : ctx.Mirrors w ctx') : (args : List Expr) →
    (ts : List Ty) →
    (compileArgs ctx args ts).Mirrors w id
      (compileArgs ctx' (Expr.mapTypesAll (Ty.resolve w) args) (ts.map (Ty.resolve w)))
  | arg :: args, t :: ts => by
    simp only [Expr.mapTypesAll, List.map_cons, compileArgs]
    rw [hctx.width, span_mapTypes]
    refine (compile_mirrors hctx arg t).bind ((convertImplicit_mirrors _ _ _ _).bind ?_)
    exact (compileArgs_mirrors hctx args ts).bind (mirrors_pure id _)
  | [], _ => by
    simp only [Expr.mapTypesAll, compileArgs]
    exact mirrors_pure id _
  | _ :: _, [] => by
    simp only [Expr.mapTypesAll, List.map_nil, compileArgs]
    exact mirrors_pure id _
termination_by structural args => args

end

/-! ## Parts of statements -/

/-- Every expression is an operand that mirrors its resolved one. -/
private theorem ofExpr_mirrors (hctx : ctx.Mirrors w ctx') (e : Expr) :
    Operand.Mirrors w (.ofExpr ctx e) (.ofExpr ctx' (e.mapTypes (Ty.resolve w))) :=
  operand_mirrors hctx fun expected => compile_mirrors hctx e expected

/-- Conditions compile alike. -/
theorem compileCondition_mirrors (hctx : ctx.Mirrors w ctx') (e : Expr) :
    (compileCondition ctx e).Mirrors w id
      (compileCondition ctx' (e.mapTypes (Ty.resolve w))) := by
  unfold compileCondition
  rw [hctx.width]
  exact (ofExpr_mirrors hctx e).condition

/-- A value is dropped where its resolved type has one. -/
theorem compileDropped_mirrors (hctx : ctx.Mirrors w ctx') (e : Expr) :
    (compileDropped ctx e).Mirrors w id
      (compileDropped ctx' (e.mapTypes (Ty.resolve w))) := by
  refine (compile_mirrors hctx e .void).bind ?_
  dsimp only [Compiled.mapTypes]
  rw [Ty.isVoid_resolve]
  exact mirrors_pure id _

/-- An expression whose value is not used is the same code. The induction is on the parentheses
    around it. -/
theorem compileDiscarded_mirrors (hctx : ctx.Mirrors w ctx') : (e : Expr) →
    (compileDiscarded ctx e).Mirrors w id
      (compileDiscarded ctx' (e.mapTypes (Ty.resolve w)))
  | .paren _ inner => by
    simp only [Expr.mapTypes, compileDiscarded]
    exact compileDiscarded_mirrors hctx inner
  | .assign span op target value => by
    simp only [Expr.mapTypes, compileDiscarded]
    refine (compileUpdate_mirrors hctx op target (ofExpr_mirrors hctx value) span).bind ?_
    cases (compileUpdate ctx op target (.ofExpr ctx value) span).value with
    | none => exact mirrors_pure id _
    | some update => exact mirrors_pure id _
  | .literal .. | .name .. | .unary .. | .binary .. | .call .. | .cast .. => by
    simp only [Expr.mapTypes, compileDiscarded]
    exact compileDropped_mirrors hctx _

/-- Returned values convert alike to the resolved result. -/
theorem compileReturned_mirrors (hctx : ctx.Mirrors w ctx') (e : Expr) (result : Ty) :
    (compileReturned ctx e result).Mirrors w id
      (compileReturned ctx' (e.mapTypes (Ty.resolve w)) (result.resolve w)) := by
  unfold compileReturned
  rw [hctx.width, span_mapTypes]
  exact (compile_mirrors hctx e result).bind (convertImplicit_mirrors _ _ _ _)

/-- A discriminant is compared in the same type, which is resolved. -/
theorem compileDiscriminant_mirrors (hctx : ctx.Mirrors w ctx') (e : Expr) :
    (compileDiscriminant ctx e).Mirrors w (Prod.map id (Ty.resolve w))
      (compileDiscriminant ctx' (e.mapTypes (Ty.resolve w))) := by
  have hcompared : ∀ t : Ty, discriminantType ctx'.width (t.resolve w) =
      (discriminantType w t).resolve w := by
    intro t
    rw [discriminantType_resolve, resolve_discriminantType]
  unfold compileDiscriminant
  rw [hctx.width, span_mapTypes]
  refine (compile_mirrors hctx e .void).bind ?_
  dsimp only [Compiled.mapTypes]
  rw [hcompared]
  exact (convertExplicit_mirrors _ _ _ _).bind (mirrors_pure _ (_, _))

/-- Guards convert alike to the resolved type of the switch. -/
theorem compileGuard_mirrors (hctx : ctx.Mirrors w ctx') (compared : Ty) (e : Expr) :
    (compileGuard ctx compared e).Mirrors w id
      (compileGuard ctx' (compared.resolve w) (e.mapTypes (Ty.resolve w))) := by
  unfold compileGuard
  rw [hctx.width, span_mapTypes]
  exact (compile_mirrors hctx e compared).bind (convertExplicit_mirrors _ _ _ _)

/-- A variable gets the same initial value, and its type resolved. -/
theorem compileInitial_mirrors (hctx : ctx.Mirrors w ctx') (d : Declarator)
    (declared : Option Ty) :
    (compileInitial ctx d declared).Mirrors w (Prod.map id (Ty.resolve w))
      (compileInitial ctx' (d.mapTypes (Ty.resolve w)) (declared.map (Ty.resolve w))) := by
  unfold compileInitial
  rw [hctx.width]
  dsimp only [Declarator.mapTypes]
  -- A missing type is reported, and a missing value is left to its type.
  cases d.init with
  | none =>
    cases declared with
    | none => exact (mirrors_report (.missingType _) _).bind (mirrors_pure _ (none, Ty.i32))
    | some t => exact mirrors_pure _ (none, t)
  | some e =>
    cases declared with
    | some t =>
      dsimp only [Option.map_some]
      rw [span_mapTypes]
      refine (compile_mirrors hctx e t).bind ((convertImplicit_mirrors _ _ _ _).bind ?_)
      exact mirrors_pure _ (some _, t)
    | none =>
      dsimp only [Option.map_some, Option.map_none]
      rw [span_mapTypes]
      refine (compile_mirrors hctx e .void).bind ?_
      dsimp only [Compiled.mapTypes]
      rw [Ty.isVoid_resolve]
      split
      · exact (convertExplicit_mirrors _ _ .i32 _).bind (mirrors_pure _ (some _, Ty.i32))
      · exact mirrors_pure _ (some _, _)

/-- An expression that may be missing. -/
theorem mapM_mirrors {compiled compiled' : Expr → Reported Node}
    (h : ∀ e, (compiled e).Mirrors w id (compiled' (e.mapTypes (Ty.resolve w))))
    (o : Option Expr) :
    (o.mapM compiled).Mirrors w id ((o.map (Expr.mapTypes (Ty.resolve w))).mapM compiled') := by
  cases o with
  | none => exact mirrors_pure id _
  | some e => exact (h e).bind (mirrors_pure id _)

end

end Lowering

end Weir
