import Weir.Proofs.LiteralPositions
import Weir.Proofs.RigidExpressions

/-!
# What is reported of comparisons

A comparison of two operands is reported if one of them is, if one of them has no value, or if one
of them may not be converted to the type in which they meet. The left operand is compiled with
nothing expected, and the right one for the type of the left one, unless that is a literal. Literals
are compiled again for the type in which the operands meet. So the order of the operands decides
what is expected of them, and for 64-bit integers also in which type they meet.

## Key results

- `compileStrict_quiet_iff`: when nothing is reported of a comparison
- `comparable_comm`: whether types can be compared does not depend on their order
- `compared_comm`: when this also goes for operands
-/

namespace Weir.Source

/-- The literal that an expression is, in parentheses, under a plus sign, or right behind a minus
    sign. -/
def Expr.plain? : Expr → Option Literal
  | .literal _ l => some l
  | .paren _ e | .unary _ .plus e => e.plain?
  | .unary _ .minus (.literal _ (.int n)) => some (.int (-n))
  | .unary _ .minus (.literal _ (.float x)) => some (.float x.neg)
  | _ => none

end Weir.Source

namespace Weir.Lowering

open Weir.Code (Node)
open Weir.Source (BinaryOp Expr Literal PointerWidth Span Ty)
open Reported (bind_quiet_iff)

/-! ## Reports -/

section

variable {w : PointerWidth} {s t : Ty} {left right : Operand} {op : BinaryOp} {expected : Ty}
  {span : Span}

/-- An implicit conversion is allowed if it is lossless and does not make a value of nothing. -/
theorem checkImplicit_eq_ok :
    checkImplicit w s t = .ok () ↔ (s.isVoid → t.isVoid) ∧ lossless w s t := by
  unfold checkImplicit
  cases s.isVoid <;> cases t.isVoid <;> cases lossless w s t <;> simp

/-- An implicit conversion reports nothing exactly if it is allowed. -/
theorem convertImplicit_quiet_iff {n : Node} :
    (convertImplicit w n s t span).reports = [] ↔ checkImplicit w s t = .ok () := by
  refine ⟨fun h => (convertImplicit_quiet h).1, fun h => ?_⟩
  unfold convertImplicit
  rw [h]
  rfl

namespace Operand

/-- The type that is expected of an operand to the right of another one in a comparison. -/
def hintAfter (left : Operand) : Ty :=
  if left.isLiteral then .void else (left.compile .void).value.ty

/-- The type in which two operands are compared. -/
def common (w : PointerWidth) (left right : Operand) : Ty :=
  unify w (left.compile .void).value.ty (right.compile left.hintAfter).value.ty

/-- The type that an operand is compiled for in the end. -/
def retypedTo (e : Operand) (hint common : Ty) : Ty :=
  if (e.compile hint).value.ty ≠ common ∧ e.isLiteral then common else hint

variable {e : Operand}

/-- After a literal nothing is expected of the other operand. -/
theorem hintAfter_of_isLiteral (h : e.isLiteral) : e.hintAfter = .void :=
  if_pos h

/-- After an operand that is no literal, its type is expected of the other one. -/
theorem hintAfter_of_not_isLiteral (h : e.isLiteral = false) :
    e.hintAfter = (e.compile .void).value.ty := by
  simp [hintAfter, h]

/-- A literal is compiled again for the common type if it is not of that type. -/
theorem retypedTo_of_isLiteral (h : e.isLiteral) (hint c : Ty) :
    e.retypedTo hint c = if (e.compile hint).value.ty ≠ c then c else hint := by
  simp [retypedTo, h]

theorem retypedTo_of_not_isLiteral (h : e.isLiteral = false) (hint c : Ty) :
    e.retypedTo hint c = hint := by
  simp [retypedTo, h]

end Operand

/-- Where the operands of a comparison meet. -/
theorem meeting_comparison (h : op.isComparison) :
    meeting w op left right expected =
      ⟨left.retypedTo .void (left.common w right),
        right.retypedTo left.hintAfter (left.common w right), left.common w right⟩ := by
  unfold meeting
  simp only [h, if_true, Bool.not_true, Bool.and_false, Bool.false_eq_true, if_false]
  rfl

/-- Nothing is to be reported of two operands that are compared. -/
structure Compared (w : PointerWidth) (left right : Operand) : Prop where
  left_quiet : (left.compile .void).reports = []
  right_quiet : (right.compile left.hintAfter).reports = []
  isVoid : (left.common w right).isVoid = false
  left_met : left.Met w (left.retypedTo .void (left.common w right)) (left.common w right)
  right_met : right.Met w (right.retypedTo left.hintAfter (left.common w right))
    (left.common w right)

/-- An operand that reports nothing is compiled for one type in the end. -/
private theorem retype_eq {e : Operand} {hint common : Ty} (h : (e.compile hint).reports = []) :
    e.retype (e.compile hint).value common = e.compile (e.retypedTo hint common) := by
  have hpure : (pure (e.compile hint).value : Reported Compiled) = e.compile hint := by
    cases hc : e.compile hint
    rw [hc] at h
    cases h
    rfl
  unfold Operand.retype Operand.retypedTo
  split
  · rfl
  · exact hpure

/-- There is an operator for every comparison, whatever the type. -/
private theorem operatorFor?_comparison (h : op.isComparison) (t : Ty) :
    ∃ code, operatorFor? op t = some code := by
  cases op <;> first | exact ⟨_, rfl⟩ | cases h

/-- A comparison is compiled without reports exactly if its operands can be compared. -/
theorem compileStrict_quiet_iff (h : op.isComparison) :
    (compileStrict w op left right expected span).reports = [] ↔ Compared w left right := by
  constructor
  · intro hquiet
    obtain ⟨hleft, hright, -⟩ := compileStrict_quiet hquiet
    rw [meeting_comparison h] at hleft hright
    unfold compileStrict at hquiet
    simp only [h, if_true, bind_quiet_iff] at hquiet
    obtain ⟨hl, hr, hrest⟩ := hquiet
    refine ⟨hl, hr, ?_, hleft, hright⟩
    -- Without a common type the comparison itself is reported.
    by_contra hvoid
    rw [Bool.not_eq_false] at hvoid
    rw [← Operand.hintAfter, ← Operand.common, if_pos hvoid] at hrest
    cases hrest
  · rintro ⟨hl, hr, hvoid, hleft, hright⟩
    obtain ⟨code, hcode⟩ := operatorFor?_comparison h (left.common w right)
    unfold compileStrict
    simp only [h, if_true, bind_quiet_iff]
    rw [← Operand.hintAfter, ← Operand.common, hvoid, if_neg (by decide), retype_eq hl,
      retype_eq hr]
    simp only [bind_quiet_iff, Bool.not_true, Bool.and_false, Bool.false_eq_true, if_false, hcode,
      convertImplicit_quiet_iff]
    exact ⟨hl, hr, hleft.quiet, hright.quiet, hleft.allowed, hright.allowed, rfl⟩

end

/-! ## Types that can be compared -/

section

variable {w : PointerWidth} {s t : Ty} {left right : Operand}

/-- Values of the two types can be compared: both may be converted to the type in which they meet.
-/
structure Comparable (w : PointerWidth) (s t : Ty) : Prop where
  isVoid : (unify w s t).isVoid = false
  left : checkImplicit w s (unify w s t) = .ok ()
  right : checkImplicit w t (unify w s t) = .ok ()

/-- Two types can be compared if neither is `void` and both convert to their common type without
    loss. -/
private theorem comparable_iff :
    Comparable w s t ↔ (unify w s t).isVoid = false ∧ s.isVoid = false ∧ t.isVoid = false ∧
      lossless w s (unify w s t) ∧ lossless w t (unify w s t) := by
  constructor
  · rintro ⟨hvoid, hs, ht⟩
    rw [checkImplicit_eq_ok, hvoid] at hs ht
    exact ⟨hvoid, by simpa using hs.1, by simpa using ht.1, hs.2, ht.2⟩
  · rintro ⟨hvoid, hs, ht, hls, hlt⟩
    refine ⟨hvoid, checkImplicit_eq_ok.2 ⟨?_, hls⟩, checkImplicit_eq_ok.2 ⟨?_, hlt⟩⟩
    · simp [hs]
    · simp [ht]

/-- Whether two types can be compared does not depend on their order. -/
theorem comparable_comm : Comparable w s t ↔ Comparable w t s := by
  rw [comparable_iff, comparable_iff]
  cases w <;> cases s <;> cases t <;> decide

/-- Only two integer types of 64 bits meet in different types, depending on their order. -/
private theorem unify_comm (hs : s.resolve w ≠ .u64) (ht : t.resolve w ≠ .u64) :
    unify w s t = unify w t s := by
  revert hs ht
  cases w <;> cases s <;> cases t <;> decide

/-- It makes no difference to an operand next to one of a type whether the type is expected of it:
    it is reported in both cases or in none, and if it is not, it can be compared with a value of
    the type in both cases or in none. -/
def Operand.SteadyFor (w : PointerWidth) (e : Operand) (t : Ty) : Prop :=
  ((e.compile t).reports = [] ↔ (e.compile .void).reports = []) ∧
    ((e.compile .void).reports = [] →
      (Comparable w t (e.compile t).value.ty ↔ Comparable w t (e.compile .void).value.ty))

private theorem compared_iff_of_not_isLiteral (hl : left.isLiteral = false)
    (hr : right.isLiteral = false) (h : right.SteadyFor w (left.compile .void).value.ty) :
    Compared w left right ↔ (left.compile .void).reports = [] ∧ (right.compile .void).reports = [] ∧
      Comparable w (left.compile .void).value.ty (right.compile .void).value.ty := by
  have hhint := Operand.hintAfter_of_not_isLiteral hl
  have hleft := Operand.retypedTo_of_not_isLiteral hl
  have hright := Operand.retypedTo_of_not_isLiteral hr
  -- The right operand is compiled with the type of the left one expected, and its steadiness
  -- removes that.
  constructor
  · rintro ⟨hlq, hrq, hvoid, hleftmet, hrightmet⟩
    have hl' := hleftmet.allowed
    have hr' := hrightmet.allowed
    rw [hleft] at hl'
    rw [hright, hhint] at hr'
    rw [hhint] at hrq
    rw [Operand.common, hhint] at hvoid hl' hr'
    have hquiet := h.1.1 hrq
    exact ⟨hlq, hquiet, (h.2 hquiet).1 ⟨hvoid, hl', hr'⟩⟩
  · rintro ⟨hlq, hquiet, hcomparable⟩
    obtain ⟨hvoid, hl', hr'⟩ := (h.2 hquiet).2 hcomparable
    have hrq := h.1.2 hquiet
    refine ⟨hlq, ?_, ?_, ⟨?_, ?_⟩, ⟨?_, ?_⟩⟩
    · rwa [hhint]
    · rwa [Operand.common, hhint]
    · rwa [hleft]
    · rwa [hleft, Operand.common, hhint]
    · rwa [hright, hhint]
    · rwa [hright, Operand.common, hhint]

/-- Two operands of which none is a literal are compared in both orders or in none. -/
private theorem compared_comm_of_not_isLiteral (hl : left.isLiteral = false)
    (hr : right.isLiteral = false) (hls : left.SteadyFor w (right.compile .void).value.ty)
    (hrs : right.SteadyFor w (left.compile .void).value.ty) :
    Compared w left right ↔ Compared w right left := by
  rw [compared_iff_of_not_isLiteral hl hr hrs, compared_iff_of_not_isLiteral hr hl hls,
    comparable_comm]
  tauto

/-- Two literals meet in one type in both orders. -/
private theorem common_comm (hl : left.isLiteral) (hr : right.isLiteral)
    (hlt : (left.compile .void).value.ty.resolve w ≠ .u64)
    (hrt : (right.compile .void).value.ty.resolve w ≠ .u64) :
    left.common w right = right.common w left := by
  rw [Operand.common, Operand.common, Operand.hintAfter_of_isLiteral hl,
    Operand.hintAfter_of_isLiteral hr]
  exact unify_comm hlt hrt

/-- Two literals are compared in both orders or in none. -/
private theorem compared_comm_of_isLiteral (hl : left.isLiteral) (hr : right.isLiteral)
    (hcommon : left.common w right = right.common w left) :
    Compared w left right ↔ Compared w right left := by
  have hlhint := Operand.hintAfter_of_isLiteral hl
  have hrhint := Operand.hintAfter_of_isLiteral hr
  -- Neither literal is told anything by the other one, so only the common type has to agree.
  constructor
  · rintro ⟨hlq, hrq, hvoid, hleft, hright⟩
    rw [hlhint] at hrq hright
    rw [hcommon] at hvoid hleft hright
    exact ⟨hrq, by rwa [hrhint], hvoid, hright, by rwa [hrhint]⟩
  · rintro ⟨hrq, hlq, hvoid, hright, hleft⟩
    rw [hrhint] at hlq hleft
    rw [← hcommon] at hvoid hleft hright
    exact ⟨hlq, by rwa [hlhint], hvoid, hleft, by rwa [hlhint]⟩

/-! ### Literals -/

/-- What a literal and a value of a type have to fulfil to be compared, with the literal on the left
    or on the right. -/
private structure LiteralMeets (w : PointerWidth) (ty : Ty → Ty) (hint t c : Ty) : Prop where
  isVoid : c.isVoid = false
  literal : checkImplicit w (ty (if ty hint ≠ c then c else hint)) c = .ok ()
  other : checkImplicit w t c = .ok ()

/-- A literal and a value meet if both convert to the common type and none of them is `void`. -/
private theorem literalMeets_iff {ty : Ty → Ty} {hint c : Ty} :
    LiteralMeets w ty hint t c ↔ c.isVoid = false ∧
      ((ty (if ty hint ≠ c then c else hint)).isVoid = false ∧
        lossless w (ty (if ty hint ≠ c then c else hint)) c) ∧
      t.isVoid = false ∧ lossless w t c := by
  constructor
  · rintro ⟨hvoid, hliteral, hother⟩
    rw [checkImplicit_eq_ok, hvoid] at hliteral hother
    exact ⟨hvoid, by simpa using hliteral, by simpa using hother⟩
  · rintro ⟨hvoid, ⟨hl, hliteral⟩, ho, hother⟩
    exact ⟨hvoid, checkImplicit_eq_ok.2 ⟨fun h => (Bool.eq_false_iff.1 hl h).elim, hliteral⟩,
      checkImplicit_eq_ok.2 ⟨fun h => (Bool.eq_false_iff.1 ho h).elim, hother⟩⟩

private theorem checkImplicit_self : checkImplicit w t t = .ok () := by
  rw [checkImplicit_eq_ok]
  refine ⟨id, ?_⟩
  simp [lossless, losslessResolved]

/-- A value of `usize` converts to the type that it stands for. -/
private theorem checkImplicit_resolve_self (hvoid : t.isVoid = false) :
    checkImplicit w t (t.resolve w) = .ok () := by
  rw [checkImplicit_eq_ok]
  refine ⟨by simp [hvoid], ?_⟩
  revert hvoid
  cases w <;> cases t <;> decide

/-- A type and the one that it stands for meet at the latter. -/
private theorem unify_resolve_self : unify w t (t.resolve w) = t.resolve w := by
  cases w <;> cases t <;> rfl

section

variable {b : BitVec 64}

/-- The type of an integer literal of which nothing is expected. -/
theorem natural_cases (w : PointerWidth) (b : BitVec 64) :
    let natural := (compileLiteral w (.int b) .void).ty
    natural = .i32 ∧ literalFits b .i32 ∨ natural = .i64 ∧ ¬ literalFits b .i32 := by
  have heq : (compileLiteral w (.int b) .void).ty = if literalFits b .i32 then .i32 else .i64 := rfl
  rw [heq]
  by_cases h : literalFits b .i32
  · exact .inl ⟨if_pos h, h⟩
  · exact .inr ⟨if_neg h, h⟩

/-- An integer literal takes the type that is expected if that has it. -/
private theorem ty_of_fits (h : literalFits b (t.resolve w)) :
    (compileLiteral w (.int b) t).ty = t.resolve w := by
  simp only [compileLiteral, h, if_true]

/-- An integer literal that does not fit takes the type that it has when nothing is expected. -/
private theorem ty_of_not_fits (h : ¬ literalFits b (t.resolve w)) :
    (compileLiteral w (.int b) t).ty = (compileLiteral w (.int b) .void).ty := by
  simp only [compileLiteral, h]
  rfl

/-- The type in which an integer literal is compared with a value of a type that has it. -/
private theorem natural_meets {natural : Ty} (hnatural : natural = .i32 ∨ natural = .i64)
    (ht : (t.resolve w).isNumeric) (hwide : ¬ (natural = .i64 ∧ t.resolve w = .u64)) :
    let c := unify w natural t
    c.isVoid = false ∧ (t.isVoid = false ∧ lossless w t c) ∧ c.resolve w = c ∧
      (c = natural ∨ c = t.resolve w ∨ c = .i64 ∨ c = .f64) := by
  revert ht hwide
  rcases hnatural with rfl | rfl <;> cases w <;> cases t <;> decide

/-- An integer literal on the left of a value of a type that has it takes the type in which the two
    meet. -/
private theorem LiteralMeets.of_fits_left (hfits : literalFits b (t.resolve w))
    (hwide : 2 ^ 31 ≤ b.toInt → t.resolve w ≠ .u64) :
    let ty e := (compileLiteral w (.int b) e).ty
    LiteralMeets w ty .void t (unify w (ty .void) t) := by
  intro ty
  have hnatural : ty .void = .i32 ∨ ty .void = .i64 := (natural_cases w b).imp And.left And.left
  -- A literal of 64 bits that the unsigned type has is from `2 ^ 31` on, which is ruled out.
  have hnarrow : ¬ (ty .void = .i64 ∧ t.resolve w = .u64) := by
    rintro ⟨hlong, hunsigned⟩
    rcases natural_cases w b with ⟨hword, -⟩ | ⟨-, hmissing⟩
    · exact absurd (hlong.symm.trans hword) (by decide)
    · rw [hunsigned] at hfits
      refine hwide ?_ hunsigned
      simp [literalFits] at hfits hmissing
      omega
  obtain ⟨hvoid, hother, hfixed, hc⟩ :=
    natural_meets hnatural (isNumeric_of_literalFits hfits (Ty.resolve_resolve w t)) hnarrow
  generalize unify w (ty .void) t = c at hvoid hother hfixed hc
  -- The two meet in a type that has the literal.
  have hliteral : ty (if ty .void ≠ c then c else .void) = c := by
    by_cases hsame : ty .void = c
    · rw [if_neg (not_not.2 hsame), hsame]
    · have hfits' : literalFits b (c.resolve w) := by
        rw [hfixed]
        rcases hc with rfl | rfl | rfl | rfl
        · exact absurd rfl hsame
        · exact hfits
        · rfl
        · rfl
      rw [if_pos hsame]
      exact (ty_of_fits hfits').trans hfixed
  refine ⟨hvoid, ?_, checkImplicit_eq_ok.2 ⟨by simp [hother.1], hother.2⟩⟩
  rw [hliteral]
  exact checkImplicit_self

/-- On the right it takes the type of the value at once. -/
private theorem LiteralMeets.of_fits_right (hfits : literalFits b (t.resolve w)) :
    let ty e := (compileLiteral w (.int b) e).ty
    LiteralMeets w ty t t (unify w t (ty t)) := by
  intro ty
  have hnumeric := isNumeric_of_literalFits hfits (Ty.resolve_resolve w t)
  have hvoid : t.isVoid = false := by
    cases t with
    | void => cases w <;> cases hnumeric
    | _ => rfl
  have hty : ty t = t.resolve w := ty_of_fits hfits
  rw [hty, unify_resolve_self]
  refine ⟨by simpa using hvoid, ?_, checkImplicit_resolve_self hvoid⟩
  rw [hty, if_neg (not_not.2 rfl), hty]
  exact checkImplicit_self

/-- The type of a literal meets another type in both orders alike, except `i64` and `u64`. -/
private theorem unify_natural_comm {natural : Ty} (hnatural : natural = .i32 ∨ natural = .i64)
    (hwide : ¬ (natural = .i64 ∧ t.resolve w = .u64)) : unify w natural t = unify w t natural := by
  revert hwide
  rcases hnatural with rfl | rfl <;> cases w <;> cases t <;> decide

/-- An `i64` before a `u64` is refused, and the other way around they meet at `u64`. -/
private theorem wide_refused (h : t.resolve w = .u64) :
    checkImplicit w t (unify w .i64 t) ≠ .ok () ∧ unify w t .i64 = .u64 := by
  rw [Ne, checkImplicit_eq_ok]
  revert h
  cases w <;> cases t <;> decide

/-- A negative literal that is too long for 32 bits is compared with no value of `u64`. -/
private theorem not_literalMeets_of_wide (hfits : ¬ literalFits b (t.resolve w)) :
    let ty e := (compileLiteral w (.int b) e).ty
    ty .void = .i64 → t.resolve w = .u64 →
      ¬ LiteralMeets w ty .void t (unify w (ty .void) t) ∧
        ¬ LiteralMeets w ty t t (unify w t (ty t)) := by
  intro ty hlong hunsigned
  obtain ⟨hleft, hright⟩ := wide_refused hunsigned
  have hty : ty t = .i64 := (ty_of_not_fits hfits).trans hlong
  have hty' : ty .u64 = .i64 := by
    rw [hunsigned] at hfits
    exact (ty_of_not_fits hfits).trans hlong
  rw [hlong, hty, hright]
  constructor
  · rintro ⟨-, -, hother⟩
    exact hleft hother
  · rintro ⟨-, hliteral, -⟩
    rw [hty, if_pos (by decide), hty', checkImplicit_eq_ok] at hliteral
    revert hliteral
    cases w <;> decide

/-- An integer literal that a type does not have is of one type on either side. -/
private theorem literalMeets_iff_of_not_fits (hfits : ¬ literalFits b (t.resolve w)) :
    let ty e := (compileLiteral w (.int b) e).ty
    LiteralMeets w ty .void t (unify w (ty .void) t) ↔
      LiteralMeets w ty t t (unify w t (ty t)) := by
  intro ty
  have hnatural : ty .void = .i32 ∨ ty .void = .i64 := (natural_cases w b).imp And.left And.left
  -- The one pair of types that meets differently by the order is refused in both.
  by_cases hwide : ty .void = .i64 ∧ t.resolve w = .u64
  · obtain ⟨hleft, hright⟩ := not_literalMeets_of_wide hfits hwide.1 hwide.2
    exact ⟨fun h => absurd h hleft, fun h => absurd h hright⟩
  · have hsame : ty t = ty .void := ty_of_not_fits hfits
    rw [hsame, unify_natural_comm hnatural hwide]
    generalize unify w t (ty .void) = c
    have hfinal : ty (if ty .void ≠ c then c else .void) = ty (if ty t ≠ c then c else t) := by
      rw [hsame]
      split
      · rfl
      · exact hsame.symm
    constructor
    · rintro ⟨hvoid, hliteral, hother⟩
      exact ⟨hvoid, hfinal ▸ hliteral, hother⟩
    · rintro ⟨hvoid, hliteral, hother⟩
      exact ⟨hvoid, hfinal ▸ hliteral, hother⟩

end

/-- A literal that is not past the first half of the numbers of `u64`, if it is compared with one of
    them, can be compared on either side or on none. -/
private theorem literalMeets_comm {l : Literal}
    (hwide : ∀ b, l = .int b → 2 ^ 31 ≤ b.toInt → t.resolve w ≠ .u64) :
    let ty e := (compileLiteral w l e).ty
    LiteralMeets w ty .void t (unify w (ty .void) t) ↔
      LiteralMeets w ty t t (unify w t (ty t)) := by
  -- Booleans and floats leave finitely many cases, one for each type.
  cases l with
  | int b =>
    by_cases hfits : literalFits b (t.resolve w)
    · exact iff_of_true (.of_fits_left hfits (hwide b rfl)) (.of_fits_right hfits)
    · exact literalMeets_iff_of_not_fits hfits
  | boolean p =>
    have hty : (fun e => (compileLiteral w (.boolean p) e).ty) = fun _ => .bool := rfl
    have hty' (e : Ty) := congrFun hty e
    dsimp only at hty' ⊢
    rw [hty, hty', hty', literalMeets_iff, literalMeets_iff]
    cases w <;> cases t <;> decide
  | float x =>
    have hty : (fun e => (compileLiteral w (.float x) e).ty) =
        fun e => if e.resolve w = .f32 then .f32 else .f64 := by
      funext e
      unfold compileLiteral
      dsimp only
      split <;> rfl
    have hty' (e : Ty) := congrFun hty e
    dsimp only at hty' ⊢
    rw [hty, hty', hty', literalMeets_iff, literalMeets_iff]
    cases w <;> cases t <;> decide

section

variable {l : Literal} {e other : Operand} (he : ∀ t, e.compile t = pure (compileLiteral w l t))
  (hliteral : e.isLiteral) (hother : other.isLiteral = false)

include he hliteral hother in
/-- A literal on the left is compiled first, and nothing is expected of the other operand. -/
private theorem compared_literal_left :
    let ty e := (compileLiteral w l e).ty
    let t := (other.compile .void).value.ty
    Compared w e other ↔
      (other.compile .void).reports = [] ∧ LiteralMeets w ty .void t (unify w (ty .void) t) := by
  intro ty t
  have hty (t : Ty) : (e.compile t).value.ty = ty t := by rw [he, Reported.value_pure]
  have hquiet (t : Ty) : (e.compile t).reports = [] := by rw [he]; rfl
  have hhint := Operand.hintAfter_of_isLiteral hliteral
  have hcommon : e.common w other = unify w (ty .void) t := by rw [Operand.common, hhint, hty]
  constructor
  · rintro ⟨-, hq, hvoid, hleft, hright⟩
    have hl := hleft.allowed
    have hr := hright.allowed
    rw [hhint] at hq
    rw [hcommon] at hvoid
    rw [Operand.retypedTo_of_isLiteral hliteral, hty, hty, hcommon] at hl
    rw [Operand.retypedTo_of_not_isLiteral hother, hhint, hcommon] at hr
    exact ⟨hq, hvoid, hl, hr⟩
  · rintro ⟨hq, hvoid, hl, hr⟩
    refine ⟨hquiet _, by rwa [hhint], by rwa [hcommon], ⟨hquiet _, ?_⟩, ⟨?_, ?_⟩⟩
    · rwa [Operand.retypedTo_of_isLiteral hliteral, hty, hty, hcommon]
    · rwa [Operand.retypedTo_of_not_isLiteral hother, hhint]
    · rwa [Operand.retypedTo_of_not_isLiteral hother, hhint, hcommon]

include he hliteral hother in
/-- A literal on the right is compiled with the type of the other operand expected. -/
private theorem compared_literal_right :
    let ty e := (compileLiteral w l e).ty
    let t := (other.compile .void).value.ty
    Compared w other e ↔
      (other.compile .void).reports = [] ∧ LiteralMeets w ty t t (unify w t (ty t)) := by
  intro ty t
  have hty (t : Ty) : (e.compile t).value.ty = ty t := by rw [he, Reported.value_pure]
  have hquiet (t : Ty) : (e.compile t).reports = [] := by rw [he]; rfl
  have hhint : other.hintAfter = t := Operand.hintAfter_of_not_isLiteral hother
  have hcommon : other.common w e = unify w t (ty t) := by rw [Operand.common, hhint, hty]
  constructor
  · rintro ⟨hq, -, hvoid, hleft, hright⟩
    have hl := hleft.allowed
    have hr := hright.allowed
    rw [hcommon] at hvoid
    rw [Operand.retypedTo_of_isLiteral hliteral, hty, hty, hhint, hcommon] at hr
    rw [Operand.retypedTo_of_not_isLiteral hother, hcommon] at hl
    exact ⟨hq, hvoid, hr, hl⟩
  · rintro ⟨hq, hvoid, hr, hl⟩
    refine ⟨hq, hquiet _, by rwa [hcommon], ⟨?_, ?_⟩, ⟨hquiet _, ?_⟩⟩
    · rwa [Operand.retypedTo_of_not_isLiteral hother]
    · rwa [Operand.retypedTo_of_not_isLiteral hother, hcommon]
    · rwa [Operand.retypedTo_of_isLiteral hliteral, hty, hty, hhint, hcommon]

include he hliteral hother in
/-- A literal and another operand are compared in both orders or in none. -/
private theorem compared_comm_of_literal
    (hwide : ∀ b, l = .int b → 2 ^ 31 ≤ b.toInt →
      (other.compile .void).value.ty.resolve w ≠ .u64) :
    Compared w e other ↔ Compared w other e :=
  calc
    _ ↔ _ := compared_literal_left he hliteral hother
    _ ↔ _ := and_congr_right' (literalMeets_comm hwide)
    _ ↔ _ := (compared_literal_right he hliteral hother).symm

end

end

/-! ## Expressions -/

section

variable {ctx : Context} {a b e other : Expr} {l : Literal} {op : BinaryOp}

/-- A plain literal compiles to the literal. -/
theorem compile_plain (ctx : Context) (h : e.plain? = some l) (t : Ty) :
    compile ctx e t = pure (compileLiteral ctx.width l t) ∧ isLiteral e := by
  fun_induction Expr.plain? e with
  | case1 span l' =>
    cases h
    exact ⟨by simp only [compile], rfl⟩
  | case2 span e ih =>
    obtain ⟨hcompile, hliteral⟩ := ih h
    exact ⟨by simpa only [compile] using hcompile, hliteral⟩
  | case3 span e ih =>
    obtain ⟨hcompile, hliteral⟩ := ih h
    exact ⟨by simpa only [compile, compileUnary] using hcompile, hliteral⟩
  | case4 span span' n =>
    cases h
    exact ⟨by simp only [compile, literalOf?, compileUnary], rfl⟩
  | case5 span span' x =>
    cases h
    exact ⟨by simp only [compile, literalOf?, compileUnary], rfl⟩
  | case6 => cases h

/-- No literal is of the unsigned type of 64 bits by itself. -/
private theorem compileLiteral_void_ne (w : PointerWidth) (l : Literal) :
    (compileLiteral w l .void).ty.resolve w ≠ .u64 := by
  cases l with
  | boolean p => exact fun h => by cases h
  | float x => exact fun h => by cases h
  | int b => rcases natural_cases w b with ⟨h, -⟩ | ⟨h, -⟩ <;> rw [h] <;> exact fun h => by cases h

/-- A sign in front of an operand does not make it one of the unsigned type of 64 bits. -/
private theorem compileUnary_minus_ne {w : PointerWidth} {operand : Operand}
    {literal? : Option Literal} {span : Span}
    (h : (operand.compile .void).value.ty.resolve w ≠ .u64) :
    (compileUnary w .minus operand literal? .void span).value.ty.resolve w ≠ .u64 := by
  have hsign : (compileUnary w .minus operand none .void span).value.ty.resolve w ≠ .u64 := by
    simp only [compileUnary, Reported.value_bind]
    split
    · simpa using h
    · split
      · simpa using h
      · exact fun h => by cases h
  cases literal? with
  | none => exact hsign
  | some l =>
    cases l with
    | int n => exact compileLiteral_void_ne w (.int (-n))
    | float x => exact compileLiteral_void_ne w (.float x.neg)
    | boolean p => exact hsign

/-- Literals of which nothing is expected are not of the unsigned type of 64 bits. -/
private theorem resolve_ne_of_isLiteral : (e : Expr) → isLiteral e →
    (compile ctx e .void).value.ty.resolve ctx.width ≠ .u64
  | .literal _ l, _ => by
    simp only [compile]
    exact compileLiteral_void_ne ctx.width l
  | .paren _ e, h => by
    simp only [compile]
    exact resolve_ne_of_isLiteral e h
  | .unary _ .plus e, h => by
    simp only [compile, compileUnary]
    exact resolve_ne_of_isLiteral e h
  | .unary _ .minus e, h => by
    simp only [compile]
    exact compileUnary_minus_ne (resolve_ne_of_isLiteral e h)
termination_by structural e => e

/-- Two literals have the same common type in both orders. -/
theorem literals_common_comm (ha : isLiteral a) (hb : isLiteral b) :
    (Operand.ofExpr ctx a).common ctx.width (.ofExpr ctx b) =
      (Operand.ofExpr ctx b).common ctx.width (.ofExpr ctx a) :=
  common_comm ha hb (resolve_ne_of_isLiteral a ha) (resolve_ne_of_isLiteral b hb)

/-- A comparison is compiled by the strict rules. -/
theorem compile_comparison (hop : op.isComparison) (span : Span) (expected : Ty) :
    compile ctx (.binary span op a b) expected =
      compileStrict ctx.width op (.ofExpr ctx a) (.ofExpr ctx b) expected span := by
  simp only [compile]
  cases op <;> first | rfl | cases hop

/-- It makes no difference to what is reported of an expression on which side of another one it
    stands. This says nothing of two literals. A literal next to another expression is a plain one,
    and no integer from `2 ^ 31` on next to an unsigned number of 64 bits. Any other expression is
    reported with the type of the other one expected exactly if it is with nothing expected, and if
    it is not, it can be compared with a value of that type in both cases or in none. -/
def SteadyBeside (ctx : Context) (e other : Expr) : Prop :=
  isLiteral other = false →
    let t := (compile ctx other .void).value.ty
    if isLiteral e then
      ∃ l, e.plain? = some l ∧ ∀ b, l = .int b → 2 ^ 31 ≤ b.toInt → t.resolve ctx.width ≠ .u64
    else (Operand.ofExpr ctx e).SteadyFor ctx.width t

/-- An expression in which no literal comes first is told nothing by the other one. -/
theorem SteadyBeside.of_isRigid (h : e.isRigid) : SteadyBeside ctx e other := by
  intro _ t
  rw [isLiteral_of_isRigid e h, if_neg (by decide)]
  have hsame {s t : Ty} (hquiet : (compile ctx e s).reports = []) :
      compile ctx e t = compile ctx e s := compile_rigid e h hquiet
  refine ⟨⟨fun hquiet => ?_, fun hquiet => ?_⟩, fun hquiet => ?_⟩
  · change (compile ctx e .void).reports = []
    rwa [hsame hquiet]
  · change (compile ctx e t).reports = []
    rwa [hsame hquiet]
  · change Comparable _ t (compile ctx e t).value.ty ↔ _
    rw [hsame hquiet]
    rfl

/-- Two expressions are compared in both orders or in none. -/
theorem compared_comm (hab : SteadyBeside ctx a b) (hba : SteadyBeside ctx b a) :
    Compared ctx.width (.ofExpr ctx a) (.ofExpr ctx b) ↔
      Compared ctx.width (.ofExpr ctx b) (.ofExpr ctx a) := by
  cases ha : isLiteral a <;> cases hb : isLiteral b
  case false.false =>
    have hab' := hab hb
    have hba' := hba ha
    rw [ha, if_neg (by decide)] at hab'
    rw [hb, if_neg (by decide)] at hba'
    exact compared_comm_of_not_isLiteral ha hb hab' hba'
  case false.true =>
    have hba' := hba ha
    rw [hb, if_pos rfl] at hba'
    obtain ⟨l, hl, hwide⟩ := hba'
    have hcompile (t : Ty) := (compile_plain ctx hl t).1
    exact (compared_comm_of_literal (e := .ofExpr ctx b) hcompile hb ha hwide).symm
  case true.false =>
    have hab' := hab hb
    rw [ha, if_pos rfl] at hab'
    obtain ⟨l, hl, hwide⟩ := hab'
    have hcompile (t : Ty) := (compile_plain ctx hl t).1
    exact compared_comm_of_literal (e := .ofExpr ctx a) hcompile ha hb hwide
  case true.true =>
    exact compared_comm_of_isLiteral ha hb (literals_common_comm ha hb)

end

end Weir.Lowering
