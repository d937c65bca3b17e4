import Weir.Proofs.ComparedNumbers
import Weir.Proofs.ComparisonReports
import Weir.Proofs.ResolvedExpressions

/-!
# Comparisons with their operands exchanged

A comparison says the same as the mirrored one with its operands exchanged, because both compare the
same two numbers, in whatever types they do it. An operand is not the same number on both sides if
its literals take another type next to the other operand: with `x` of 8 bits, the sum in
`x == 200 + 100` is one of 8 bits and wraps around, and the sum in `200 + 100 == x` does not. So
each operand has to be one to which the type of the other makes no difference. That is clear if no
literal comes first in it, and literals on their own are numbers that most types have.

## Key results

- `compileStrict_decides`: a comparison compares the numbers that its operands yield
- `comparison_mirrored`: a comparison and the mirrored one are reported alike, and decide alike
-/

namespace Weir.Source

namespace BinaryOp

/-- The comparison that says the same of its operands in the other order. -/
def mirrored : BinaryOp → BinaryOp
  | lt => gt
  | le => ge
  | gt => lt
  | ge => le
  | op => op

variable {op : BinaryOp} {p q : Option Position}

@[simp] theorem isComparison_mirrored : op.mirrored.isComparison = op.isComparison := by
  cases op <;> rfl

/-- A comparison holds of two numbers just when its mirror holds of them the other way round. -/
theorem holds_mirrored : op.mirrored.Holds q p ↔ op.Holds p q := by
  cases op with
  -- Equality asks for one number on both sides, an order for two numbers.
  | eq =>
    exact ⟨fun ⟨a, hq, hp⟩ => ⟨a, hp, hq⟩, fun ⟨a, hp, hq⟩ => ⟨a, hq, hp⟩⟩
  | ne =>
    exact not_congr ⟨fun ⟨a, hq, hp⟩ => ⟨a, hp, hq⟩, fun ⟨a, hp, hq⟩ => ⟨a, hq, hp⟩⟩
  | lt | le | gt | ge =>
    exact ⟨fun ⟨b, a, hq, hp, h⟩ => ⟨a, b, hp, hq, h⟩, fun ⟨a, b, hp, hq, h⟩ => ⟨b, a, hq, hp, h⟩⟩
  | _ => exact Iff.rfl

end BinaryOp

@[simp] theorem Ty.isFloat_resolve {w : PointerWidth} (t : Ty) :
    (t.resolve w).isFloat = t.isFloat := by
  cases w <;> cases t <;> rfl

end Weir.Source

namespace Weir.Lowering

open Weir.Code (Node SourceTypes TypeContext Value)
open Weir.Machine
open Weir.Source (BinaryOp Expr Literal PointerWidth Span Ty)

/-! ## Outcomes of operands -/

section

variable {σ : Type} {call : Nat → List Value → Run σ (Option Value)} {clock : Nat}
  {s : Machine.State σ} {w : PointerWidth}

/-- What code of a type does in a state: it yields a value, of which the position is given, or it
    traps. -/
inductive Delivers (call : Nat → List Value → Run σ (Option Value)) (clock : Nat) (w : PointerWidth)
    (s : Machine.State σ) (c : Compiled) : Option (Option Position) → Prop
  | value {v : Value} {p : Option Position} (hrun : evalNode call clock c.node s = .ok (some v) s)
      (hlies : c.ty.LiesAt w v p) : Delivers call clock w s c (some p)
  | trap {reason : Trap} (hrun : evalNode call clock c.node s = .error (.trap reason) s) :
      Delivers call clock w s c none

/-- What a comparison does with the outcomes of its operands. -/
def Decides (op : BinaryOp) (s : Machine.State σ)
    (result : EStateM.Result Exit (Machine.State σ) (Option Value)) :
    Option (Option Position) → Option (Option Position) → Prop
  | some p, some q => ∃ b : Bool, result = .ok (some (.ofBool b)) s ∧ (b ↔ op.Holds p q)
  | _, _ => ∃ reason, result = .error (.trap reason) s

variable {c l r : Compiled} {o o' : Option (Option Position)} {t : Ty} {op : BinaryOp}

private theorem Delivers.isVoid {p : Option Position} (h : Delivers call clock w s c (some p)) :
    c.ty.isVoid = false := by
  obtain ⟨-, hlies⟩ := h
  cases hty : c.ty with
  | void =>
    rw [hty] at hlies
    exact hlies.elim
  | _ => rfl

/-- An implicit conversion keeps the outcome. -/
private theorem Delivers.coerce (h : Delivers call clock w s c o) (hvoid : t.isVoid = false)
    (hallowed : checkImplicit w c.ty t = .ok ()) :
    Delivers call clock w s ⟨Lowering.coerce w c.node c.ty t, t⟩ o := by
  cases h with
  | value hrun hlies =>
    obtain ⟨-, hlossless⟩ := checkImplicit_eq_ok.1 hallowed
    obtain ⟨u, hu, hlies'⟩ :=
      convertValue_liesAt (Delivers.isVoid (.value hrun hlies)) hvoid hlossless hlies
    refine .value ?_ hlies'
    rw [evalNode_convertValue, Run.bind_apply, hrun]
    dsimp only
    rw [hu]
    rfl
  | @trap reason hrun =>
    have hconverted : evalNode call clock (Lowering.coerce w c.node c.ty t) s =
        .error (.trap reason) s := by
      rw [evalNode_convertValue, Run.bind_apply, hrun]
    exact .trap hconverted

/-- The operator of code compares what its operands yield. -/
private theorem decides_binary {code : Code.BinaryOp} (hop : op.isComparison)
    (hcode : operatorFor? op t = some code) {l r : Node}
    (hl : Delivers call clock w s ⟨l, t⟩ o) (hr : Delivers call clock w s ⟨r, t⟩ o') :
    Decides op s (evalNode call clock (.binary code (t.slot w) l r) s) o o' := by
  cases hl with
  | value hlrun hllies =>
    cases hr with
    | value hrrun hrlies =>
      obtain ⟨b, hb, hiff⟩ := eval_holds hop hcode hllies hrlies
      refine ⟨b, ?_, hiff⟩
      rw [evalNode_binary hlrun hrrun, hb]
    | @trap reason hrrun =>
      refine ⟨reason, ?_⟩
      simp only [evalNode, Run.value, Run.bind_apply, hlrun, hrrun, pure, EStateM.pure]
  | @trap reason hlrun =>
    -- The right operand is not reached.
    refine ⟨reason, ?_⟩
    simp only [evalNode, Run.value, Run.bind_apply, hlrun]

variable {ctx : Context} {Γ : TypeContext} {Δ : SourceTypes} {a b e : Expr}

/-- What the code of an expression without calls and assignments does. -/
private theorem exists_delivers (hpure : e.isPure) (hs : ctx.Describes Γ Δ s)
    (hquiet : (compile ctx e t).reports = []) (hvoid : (compile ctx e t).value.ty.isVoid = false) :
    ∃ o, Delivers call clock ctx.width s (compile ctx e t).value o := by
  obtain ⟨r, hrun, hyields⟩ := compile_outcome hpure hs t hquiet
  cases r with
  | error reason => exact ⟨none, .trap (hrun call clock)⟩
  | ok v =>
    obtain ⟨hslot, hcontains⟩ := hyields v rfl
    cases v with
    | none => exact absurd hslot.symm (Ty.slot_ne_none hvoid)
    | some v =>
      obtain ⟨p, hp⟩ := Ty.exists_liesAt hvoid hslot (hcontains v rfl)
      exact ⟨some p, .value (hrun call clock) hp⟩

/-- A comparison of two operands that nothing is reported of decides by their outcomes. -/
theorem compileStrict_decides {left right : Operand} {expected : Ty} {span : Span}
    (hop : op.isComparison)
    (hquiet : (compileStrict w op left right expected span).reports = [])
    (hl : Delivers call clock w s
      (left.compile (left.retypedTo .void (left.common w right))).value o)
    (hr : Delivers call clock w s
      (right.compile (right.retypedTo left.hintAfter (left.common w right))).value o') :
    Decides op s
      (evalNode call clock (compileStrict w op left right expected span).value.node s) o o' := by
  have hcompared := (compileStrict_quiet_iff hop).1 hquiet
  obtain ⟨-, -, code, hcode, hnode⟩ := compileStrict_quiet hquiet
  rw [meeting_comparison hop] at hcode hnode
  rw [hnode]
  simp only [operatorNode, hop, if_true]
  exact decides_binary hop hcode (hl.coerce hcompared.isVoid hcompared.left_met.allowed)
    (hr.coerce hcompared.isVoid hcompared.right_met.allowed)

end

/-! ## Literals -/

section

variable {w : PointerWidth} {l : Literal} {t : Ty} {b : BitVec 64}

/-- The literal is the same number whether one or the other type is expected. -/
def SameNumber (w : PointerWidth) (l : Literal) (s t : Ty) : Prop :=
  ∃ p, (compileLiteral w l s).ty.LiesAt w (literalValue w l s) p ∧
    (compileLiteral w l t).ty.LiesAt w (literalValue w l t) p

/-- A literal's value depends on the type expected of it only after resolving. -/
private theorem literalValue_resolve (t : Ty) :
    literalValue w l (t.resolve w) = literalValue w l t := by
  cases l with
  | float x =>
    unfold literalValue
    rw [Ty.resolve_resolve]
  | boolean b => rfl
  | int n =>
    unfold literalValue
    rw [compileLiteral_resolve]

private theorem sameNumber_resolve (s t : Ty) :
    SameNumber w l (s.resolve w) (t.resolve w) ↔ SameNumber w l s t := by
  unfold SameNumber
  rw [compileLiteral_resolve, compileLiteral_resolve, literalValue_resolve, literalValue_resolve]

/-- An integer literal is the number that it says unless a floating-point type is expected. -/
private theorem int_liesAt (ht : t.isFloat = false) :
    (compileLiteral w (.int b) t).ty.LiesAt w (literalValue w (.int b) t)
      (some (.ofRat b.toInt)) := by
  obtain ⟨s, heq, hfits, hresolved, hs⟩ := compileLiteral_int w b t
  -- The natural type of a literal is an integer type, and so is an expected one that is no float.
  have hinteger : s.isInteger := by
    rcases hs with rfl | ⟨h, -⟩
    · have hnumeric := isNumeric_of_literalFits hfits hresolved
      revert ht hnumeric
      cases w <;> cases t <;> decide
    · exact h
  have hvalue : literalValue w (.int b) t = integerConstant b s := by
    unfold literalValue
    rw [heq]
  rw [hvalue, heq, Ty.liesAt_of_isIntegral (Ty.isIntegral_of_isInteger hinteger)]
  exact ⟨_, holds_integerConstant hinteger hresolved hfits, rfl⟩

/-- An integer literal takes a float type only where one is expected. -/
private theorem isFloat_of_int (ht : t.isFloat = false) :
    (compileLiteral w (.int b) t).ty.isFloat = false := by
  obtain ⟨s, heq, -, -, rfl | ⟨hs, -⟩⟩ := compileLiteral_int w b t
  · rw [heq]
    exact (Ty.isFloat_resolve t).trans ht
  · rw [heq]
    exact Ty.isFloat_of_isIntegral (Ty.isIntegral_of_isInteger hs)

/-- At two types that are not floats an integer literal is the same number. -/
private theorem int_sameNumber {s : Ty} (hs : s.isFloat = false) (ht : t.isFloat = false) :
    SameNumber w (.int b) s t :=
  ⟨_, int_liesAt hs, int_liesAt ht⟩

private theorem isFloat_unify {s : Ty} (hs : s.isFloat = false) (ht : t.isFloat = false) :
    (unify w s t).isFloat = false := by
  revert hs ht
  cases w <;> cases s <;> cases t <;> decide

/-- Two equal floats meet at themselves, and an integer's natural type meets any float at `f64`. -/
private theorem unify_float {natural : Ty} (hnatural : natural = .i32 ∨ natural = .i64)
    (ht : t.isFloat) : unify w t t = t ∧ unify w natural t = .f64 := by
  cases t with
  | f32 | f64 => rcases hnatural with rfl | rfl <;> cases w <;> decide
  | _ => cases ht

/-- Under one type a literal is one number. -/
private theorem sameNumber_self (w : PointerWidth) (l : Literal) (t : Ty) :
    SameNumber w l t t := by
  suffices h : ∃ p, (compileLiteral w l t).ty.LiesAt w (literalValue w l t) p by
    obtain ⟨p, hp⟩ := h
    exact ⟨p, hp, hp⟩
  -- Booleans and floats have their number at once, an integer literal by the type that is expected.
  cases l with
  | boolean b => exact Ty.exists_liesAt (t := .bool) rfl rfl (Ty.contains_ofBool b)
  | float x =>
    unfold compileLiteral literalValue
    dsimp only
    split
    · exact ⟨_, _, rfl, rfl⟩
    · exact ⟨_, _, rfl, rfl⟩
  | int b =>
    cases ht : t.isFloat with
    | false => exact ⟨_, int_liesAt ht⟩
    | true =>
      cases t with
      | f32 | f64 => exact ⟨_, _, rfl, rfl⟩
      | _ => cases ht

/-- Two types under which a literal compiles alike give it the same number. -/
private theorem sameNumber_of_eq {s : Ty} (h : compileLiteral w l s = compileLiteral w l t) :
    SameNumber w l s t := by
  have hvalue : literalValue w l s = literalValue w l t := by
    have hnode := congrArg Compiled.node h
    rw [compileLiteral_node, compileLiteral_node] at hnode
    exact Node.const.inj hnode
  obtain ⟨p, hp, -⟩ := sameNumber_self w l t
  refine ⟨p, ?_, hp⟩
  rwa [h, hvalue]

/-- The literal is the same number on the left and on the right of a value of the type. -/
private def Settles (w : PointerWidth) (l : Literal) (t : Ty) : Prop :=
  let ty e := (compileLiteral w l e).ty
  let c := unify w (ty .void) t
  let c' := unify w t (ty t)
  SameNumber w l (if ty .void ≠ c then c else .void) (if ty t ≠ c' then c' else t)

/-- A floating-point literal is compiled for `f32` next to a value of this type on its left only. -/
private theorem float_settles {x : Double}
    (h : t.resolve w = .f32 → SameNumber w (.float x) .f32 .f64) : Settles w (.float x) t := by
  unfold Settles
  intro ty c c'
  have hty (e : Ty) : ty e = if e.resolve w = .f32 then .f32 else .f64 := by
    simp only [ty, compileLiteral]
    split <;> rfl
  have hleft : ty .void = c := by
    simp only [c, hty]
    cases w <;> cases t <;> rfl
  have hright : ty t = c' := by
    simp only [c', hty]
    cases w <;> cases t <;> rfl
  rw [if_neg (not_not.2 hleft), if_neg (not_not.2 hright)]
  -- Only where an `f32` is expected does the literal take another type than its own.
  by_cases hsingle : t.resolve w = .f32
  · obtain ⟨p, hp, hp'⟩ := h hsingle
    rw [← sameNumber_resolve, hsingle]
    exact ⟨p, hp', hp⟩
  · apply sameNumber_of_eq
    simp only [compileLiteral, if_neg hsingle]
    rfl

/-- An integer literal meets a value that is no floating-point number in a type that has it. -/
private theorem int_settles (ht : t.isFloat = false) : Settles w (.int b) t := by
  unfold Settles
  intro ty c c'
  have hword : (ty .void).isFloat = false := isFloat_of_int rfl
  apply int_sameNumber
  · split
    · exact isFloat_unify hword ht
    · rfl
  · split
    · exact isFloat_unify ht (isFloat_of_int ht)
    · exact ht

/-- On the left of a floating-point number it is compiled for `f64`, and on the right for the type
    of the number. -/
private theorem int_settles_float (ht : t.isFloat)
    (h : t = .f32 → SameNumber w (.int b) .f32 .f64) : Settles w (.int b) t := by
  unfold Settles
  intro ty c c'
  have hnatural : ty .void = .i32 ∨ ty .void = .i64 := (natural_cases w b).imp And.left And.left
  have hty : ty t = t := by
    cases t with
    | f32 | f64 => rfl
    | _ => cases ht
  obtain ⟨hself, hc⟩ : unify w t t = t ∧ c = .f64 := unify_float hnatural ht
  have hc' : c' = t := (congrArg (unify w t) hty).trans hself
  have hleft : ty .void ≠ c := by
    rw [hc]
    rcases hnatural with hn | hn <;> rw [hn] <;> decide
  rw [if_pos hleft, if_neg (not_not.2 (hty.trans hc'.symm)), hc]
  cases t with
  | f32 =>
    obtain ⟨p, hp, hp'⟩ := h rfl
    exact ⟨p, hp', hp⟩
  | f64 => exact sameNumber_self w (.int b) .f64
  | _ => cases ht

/-- A literal is the same number on the left and on the right of a value, unless the value is of the
    32-bit floating-point type, which may not have the number. -/
private theorem literal_settles (h : t.resolve w = .f32 → SameNumber w l .f32 .f64) :
    Settles w l t := by
  cases l with
  | boolean b => exact sameNumber_self w (.boolean b) .bool
  | float x => exact float_settles h
  | int b =>
    cases hfloat : t.isFloat with
    | false => exact int_settles hfloat
    | true => exact int_settles_float hfloat fun hsingle => h (by rw [hsingle]; rfl)

end

/-! ## Expressions -/

section

variable {ctx : Context} {a b e other : Expr} {l : Literal} {op : BinaryOp}
  {σ : Type} {call : Nat → List Value → Run σ (Option Value)} {clock : Nat}
  {s : Machine.State σ} {Γ : TypeContext} {Δ : SourceTypes}

/-- An expression stands for the same number on both sides of another one. This says nothing of two
    literals. A literal next to another expression is a plain one, and next to a floating-point
    number of 32 bits it is the same in 32 and in 64 bits. Any other expression yields the same
    number, or traps, with the type of the other one expected as with nothing expected. -/
def SameBeside (call : Nat → List Value → Run σ (Option Value)) (clock : Nat) (ctx : Context)
    (s : Machine.State σ) (e other : Expr) : Prop :=
  isLiteral other = false →
    let t := (compile ctx other .void).value.ty
    if isLiteral e then
      ∃ l, e.plain? = some l ∧ (t.resolve ctx.width = .f32 → SameNumber ctx.width l .f32 .f64)
    else
      ∃ o, Delivers call clock ctx.width s (compile ctx e .void).value o ∧
        Delivers call clock ctx.width s (compile ctx e t).value o

/-- An expression in which no literal comes first is told nothing by the other one. -/
theorem SameBeside.of_isRigid (h : e.isRigid) (hpure : e.isPure) (hs : ctx.Describes Γ Δ s)
    (hquiet : (compile ctx e .void).reports = [])
    (hvoid : (compile ctx e .void).value.ty.isVoid = false) :
    SameBeside call clock ctx s e other := by
  intro _ t
  rw [isLiteral_of_isRigid e h, if_neg (by decide)]
  have hsame : compile ctx e t = compile ctx e .void := compile_rigid e h hquiet
  rw [hsame]
  exact (exists_delivers hpure hs hquiet hvoid).imp fun _ ho => ⟨ho, ho⟩

/-- A literal yields its value. -/
private theorem literal_delivers {w : PointerWidth} {t : Ty} {p : Option Position}
    (h : (compileLiteral w l t).ty.LiesAt w (literalValue w l t) p) :
    Delivers call clock w s (compileLiteral w l t) (some p) := by
  refine .value ?_ h
  rw [compileLiteral_node]
  simp only [evalNode]
  rfl

/-- An operand has one outcome on the left and on the right of another one. -/
private def SameSides (call : Nat → List Value → Run σ (Option Value)) (clock : Nat)
    (w : PointerWidth) (s : Machine.State σ) (e other : Operand) : Prop :=
  ∃ o, Delivers call clock w s (e.compile (e.retypedTo .void (e.common w other))).value o ∧
    Delivers call clock w s (e.compile (e.retypedTo other.hintAfter (other.common w e))).value o

/-- A plain literal is compiled again for the type in which it meets a value. -/
private theorem literal_sameSides (hliteral : e.plain? = some l) (hother : isLiteral other = false)
    (hsingle : (compile ctx other .void).value.ty.resolve ctx.width = .f32 →
      SameNumber ctx.width l .f32 .f64) :
    SameSides call clock ctx.width s (.ofExpr ctx e) (.ofExpr ctx other) := by
  have he : (Operand.ofExpr ctx e).isLiteral := (compile_plain ctx hliteral .void).2
  have hcompile (t : Ty) :
      ((Operand.ofExpr ctx e).compile t).value = compileLiteral ctx.width l t :=
    congrArg Reported.value (compile_plain ctx hliteral t).1
  have hhint := Operand.hintAfter_of_isLiteral he
  have hhint' : (Operand.ofExpr ctx other).hintAfter = (compile ctx other .void).value.ty :=
    Operand.hintAfter_of_not_isLiteral hother
  obtain ⟨p, hp, hp'⟩ := literal_settles hsingle
  unfold SameSides
  -- The literal takes its type from the other side, wherever it stands.
  rw [Operand.retypedTo_of_isLiteral he, Operand.retypedTo_of_isLiteral he, Operand.common,
    Operand.common, hhint, hhint']
  simp only [hcompile]
  exact ⟨some p, literal_delivers hp, literal_delivers hp'⟩

/-- An operand of a comparison has the same outcome on both sides. -/
private theorem delivers_same (hpure : e.isPure) (hs : ctx.Describes Γ Δ s)
    (hsame : SameBeside call clock ctx s e other)
    (hleft : Compared ctx.width (.ofExpr ctx e) (.ofExpr ctx other)) :
    SameSides call clock ctx.width s (.ofExpr ctx e) (.ofExpr ctx other) := by
  have hvoid := (checkImplicit_eq_ok.1 hleft.left_met.allowed).1
  rw [hleft.isVoid] at hvoid
  obtain ⟨o, ho⟩ := exists_delivers hpure hs hleft.left_met.quiet
    (Bool.eq_false_iff.2 fun h => by cases hvoid h)
  cases he : isLiteral e <;> cases hother : isLiteral other
  case true.true =>
    -- Nothing is expected of either, and they meet in one type.
    have hhint : (Operand.ofExpr ctx other).hintAfter = .void :=
      Operand.hintAfter_of_isLiteral hother
    unfold SameSides
    rw [hhint, literals_common_comm hother he]
    exact ⟨o, ho, ho⟩
  case true.false =>
    have hsame' := hsame hother
    rw [he, if_pos rfl] at hsame'
    obtain ⟨l, hl, hsingle⟩ := hsame'
    exact literal_sameSides hl hother hsingle
  case false.true =>
    -- Nothing is expected of an operand next to a literal.
    have hhint : (Operand.ofExpr ctx other).hintAfter = .void :=
      Operand.hintAfter_of_isLiteral hother
    unfold SameSides
    rw [Operand.retypedTo_of_not_isLiteral he] at ho ⊢
    rw [Operand.retypedTo_of_not_isLiteral he, hhint]
    exact ⟨o, ho, ho⟩
  case false.false =>
    have hsame' := hsame hother
    rw [he, if_neg (by decide)] at hsame'
    have hhint : (Operand.ofExpr ctx other).hintAfter = (compile ctx other .void).value.ty :=
      Operand.hintAfter_of_not_isLiteral hother
    unfold SameSides
    rw [Operand.retypedTo_of_not_isLiteral he, Operand.retypedTo_of_not_isLiteral he, hhint]
    exact hsame'

/-- Comparisons are symmetric. Of two expressions without calls and assignments, each of which makes
    no difference between the sides of the other one, both comparisons are reported or none. If none
    is reported, and each expression is the same number on both sides, then both comparisons yield
    the same truth value or both trap, and neither changes the state. -/
theorem comparison_mirrored (call : Nat → List Value → Run σ (Option Value)) (clock : Nat)
    (hop : op.isComparison) (ha : a.isPure) (hb : b.isPure) (hs : ctx.Describes Γ Δ s)
    (expected expected' : Ty) (span span' : Span) :
    let ab := compile ctx (.binary span op a b) expected
    let ba := compile ctx (.binary span' op.mirrored b a) expected'
    (SteadyBeside ctx a b → SteadyBeside ctx b a → (ab.reports = [] ↔ ba.reports = [])) ∧
    (ab.reports = [] → ba.reports = [] → SameBeside call clock ctx s a b →
      SameBeside call clock ctx s b a →
      (∃ p : Bool, evalNode call clock ab.value.node s = .ok (some (.ofBool p)) s ∧
        evalNode call clock ba.value.node s = .ok (some (.ofBool p)) s) ∨
      ((∃ reason, evalNode call clock ab.value.node s = .error (.trap reason) s) ∧
        ∃ reason, evalNode call clock ba.value.node s = .error (.trap reason) s)) := by
  intro ab ba
  have hop' : op.mirrored.isComparison := by simpa using hop
  have hab : ab = compileStrict ctx.width op (.ofExpr ctx a) (.ofExpr ctx b) expected span :=
    compile_comparison hop span expected
  have hba : ba = compileStrict ctx.width op.mirrored (.ofExpr ctx b) (.ofExpr ctx a) expected'
      span' := compile_comparison hop' span' expected'
  constructor
  · intro hsteady hsteady'
    rw [hab, hba, compileStrict_quiet_iff hop, compileStrict_quiet_iff hop']
    exact compared_comm hsteady hsteady'
  · intro habq hbaq hsame hsame'
    rw [hab] at habq
    rw [hba] at hbaq
    -- In either place a side delivers the same number, or it traps.
    obtain ⟨o, hal, har⟩ := delivers_same ha hs hsame ((compileStrict_quiet_iff hop).1 habq)
    obtain ⟨o', hbl, hbr⟩ := delivers_same hb hs hsame' ((compileStrict_quiet_iff hop').1 hbaq)
    have hleft := compileStrict_decides hop habq hal hbr
    have hright := compileStrict_decides hop' hbaq hbl har
    rw [← hab] at hleft
    rw [← hba] at hright
    -- A trap on one side of both is enough for both to trap.
    cases o with
    | none =>
      refine .inr ⟨hleft, ?_⟩
      cases o' with
      | none => exact hright
      | some q => exact hright
    | some p =>
      cases o' with
      | none => exact .inr ⟨hleft, hright⟩
      | some q =>
        obtain ⟨x, hx, hxiff⟩ := hleft
        obtain ⟨y, hy, hyiff⟩ := hright
        obtain rfl : x = y := by
          rw [Bool.eq_iff_iff, hxiff, hyiff]
          exact BinaryOp.holds_mirrored.symm
        exact .inl ⟨x, hx, hy⟩

end

/-- A variable of 8 bits and one of 16 bits. -/
def octets : Context where
  width := .w32
  functions := ⟨[]⟩
  bindings := [[("x", ⟨0, .u8, false⟩), ("y", ⟨1, .u16, false⟩)]]

/-- A state in which both variables have values. -/
def octetsHeld : Machine.State Unit := ⟨[.i32 44, .i32 300], none, 0, ()⟩

/-- The two names in scope are `x` and `y`, and no other name is found. -/
private theorem octets_find? {name : String} {v : Variable}
    (h : octets.bindings.find? name = some v) : v = ⟨0, .u8, false⟩ ∨ v = ⟨1, .u16, false⟩ := by
  simp only [octets, Variables.find?, List.findSome?_cons, List.findSome?_nil, List.lookup_cons,
    List.lookup_nil] at h
  grind

/-- The two held values lie in the ranges of their types. -/
private theorem octets_describes :
    octets.Describes ⟨[.i32, .i32], fun _ => none, .none⟩ ⟨[.u8, .u16], fun _ => none, .void⟩
      octetsHeld where
  fits := {
    bindings := fun name v h => by rcases octets_find? h with rfl | rfl <;> rfl
    callables := fun name s h => by cases h }
  agrees := {
    bindings := fun name v h => by rcases octets_find? h with rfl | rfl <;> rfl
    callables := fun name s h => by cases h }
  slots := rfl
  ranges := .cons ((Ty.contains_i32 rfl).2 (by decide))
    (.cons ((Ty.contains_i32 rfl).2 (by decide)) .nil)

/-- A comparison of the variable `x` with an expression, and the mirrored one. -/
def besideX (op : BinaryOp) (e : Expr) : Reported Compiled × Reported Compiled :=
  (compile octets (.binary .empty op (.name .empty "x") e) .void,
    compile octets (.binary .empty op.mirrored e (.name .empty "x")) .void)

/-- What compiled code does in the state. -/
def runHeld (c : Reported Compiled) : EStateM.Result Exit (Machine.State Unit) (Option Value) :=
  evalNode (fun _ _ => Run.trap .unreachable) 0 c.value.node octetsHeld

/-- The sum `y + 1`. -/
def successor : Expr := .binary .empty .add (.name .empty "y") (.literal .empty (.int 1))

/-- The sum `200 + 100`, which is past the numbers of 8 bits. -/
def overflowing : Expr :=
  .binary .empty .add (.literal .empty (.int 200)) (.literal .empty (.int 100))

/-- The comparisons `x <= y + 1` and `y + 1 >= x` say the same. -/
theorem successor_mirrored :
    let (ab, ba) := besideX .le successor
    ab.reports = [] ∧ ba.reports = [] ∧
      ∃ p : Bool, runHeld ab = .ok (some (.ofBool p)) octetsHeld ∧
        runHeld ba = .ok (some (.ofBool p)) octetsHeld := by
  have hle : BinaryOp.le.isComparison := rfl
  have hmirrored := comparison_mirrored (fun _ _ => Run.trap .unreachable) 0
    (a := .name .empty "x") (b := successor) hle rfl rfl octets_describes .void .void .empty .empty
  have hab : (besideX .le successor).1.reports = [] := rfl
  have hba := (hmirrored.1 (.of_isRigid rfl) (.of_isRigid rfl)).1 hab
  refine ⟨hab, hba, ?_⟩
  have hrun : runHeld (besideX .le successor).1 = .ok (some (.ofBool true)) octetsHeld := rfl
  rcases hmirrored.2 hab hba (.of_isRigid rfl rfl octets_describes rfl rfl)
    (.of_isRigid rfl rfl octets_describes rfl rfl) with h | ⟨⟨reason, h⟩, -⟩
  · exact h
  · exact absurd (hrun.symm.trans h) (by nofun)

/-- The sum in `x == 200 + 100` wraps around, and the one in `200 + 100 == x` does not. -/
theorem overflowing_not_mirrored :
    let (ab, ba) := besideX .eq overflowing
    ab.reports = [] ∧ ba.reports = [] ∧ runHeld ab = .ok (some (.ofBool true)) octetsHeld ∧
      runHeld ba = .ok (some (.ofBool false)) octetsHeld :=
  ⟨rfl, rfl, rfl, rfl⟩

end Weir.Lowering
