import Weir.Proofs.EvaluationOrder
import Weir.Proofs.ExactRounding
import Weir.Proofs.Integers

/-!
# Integer literals in their positions

An integer literal, under a minus sign or not, ends as a constant of the type of its position:
the type of a variable, of a parameter or of a result, or the type in which two operands meet. If
nothing is reported, an integer type has the number and the constant stands for it. A
floating-point type is given every number and rounds it, so that the constant stands for the number
only if the type has it.

The number under a minus sign can be past the last one of 64 bits. This one number is missing here:
it wraps around before it is looked at.

## Key results

- `compileLiteral_int`: the type and the constant that an integer literal is compiled to
- `literal_denoted`: the constant of a literal that may stand where it stands
- `literal_kept`: literals as initial values, results, new values, arguments and operands
- `literal_rounded`: a literal that is changed, and not reported
- `literal_wrapped`: the number that wraps around, which is why `literal_kept` asks for one below
  `2 ^ 63`
-/

namespace Weir.Source

open Weir.Code (Value)

/-- The number that an expression denotes if it is an integer literal, or one under a minus sign. -/
def Expr.integer? : Expr → Option Int
  | .literal _ (.int b) => some b.toInt
  | .unary _ .minus (.literal _ (.int b)) => some (-b.toInt)
  | _ => none

namespace Ty

/-- Whether a type has numbers. -/
def isNumeric (t : Ty) : Bool := t.isInteger || t.isFloat

/-- The value of a numeric type stands for exactly the integer. -/
def Denotes (w : PointerWidth) (t : Ty) (v : Value) (n : Int) : Prop :=
  match t with
  | .f32 => ∃ x : Single, v = .f32 x ∧ x.isFinite ∧ x.toRat = n
  | .f64 => ∃ x : Double, v = .f64 x ∧ x.isFinite ∧ x.toRat = n
  | t => t.Holds w v n

variable {w : PointerWidth} {t : Ty} {v : Value} {n : Int}

/-- A value denotes a number of an integer type if it holds it. -/
theorem denotes_of_isInteger (h : t.isInteger) : t.Denotes w v n ↔ t.Holds w v n := by
  cases t <;> first | exact Iff.rfl | exact absurd h (by decide)

theorem isIntegral_of_isInteger (h : t.isInteger) : t.isIntegral := by
  simp [isIntegral, h]

@[simp] theorem isInteger_resolve (t : Ty) : (t.resolve w).isInteger = t.isInteger := by
  cases w <;> cases t <;> rfl

/-- A value holds the same number of a type as of the one that it stands for. -/
theorem holds_resolve : (t.resolve w).Holds w v n ↔ t.Holds w v n := by
  constructor
  · rintro ⟨hrange, heq⟩
    exact ⟨inRange_resolve.1 hrange, by rw [heq, encode_resolve]⟩
  · rintro ⟨hrange, heq⟩
    exact ⟨inRange_resolve.2 hrange, by rw [heq, encode_resolve]⟩

end Ty

end Weir.Source

namespace Weir.Lowering

open Weir.Code (Node Value)
open Weir.Source (BinaryOp Declarator Expr Ident PointerWidth Span Ty)
open Reported (unreported_pure unreported_self)

/-! ## Literals -/

section

variable {w : PointerWidth} {b : BitVec 64} {t : Ty}

/-- An integer fits the integer types that have it. -/
theorem literalFits_iff (h : t.isInteger) (hresolved : t.resolve w = t) :
    literalFits b t ↔ t.InRange w b.toInt := by
  have hlo := b.le_toInt
  have hhi := b.toInt_lt
  cases t with
  | usize => cases w <;> cases hresolved
  | void | bool | f32 | f64 => exact absurd h (by decide)
  | _ =>
    simp only [literalFits, Ty.InRange, Ty.least, Ty.greatest, Ty.isSigned, Ty.bits,
      Bool.and_eq_true, decide_eq_true_eq, if_true, Bool.false_eq_true, if_false]
    norm_num at hlo hhi ⊢
    try omega

/-- The constant for an integer that fits an integer type stands for the integer. -/
theorem holds_integerConstant (h : t.isInteger) (hresolved : t.resolve w = t)
    (hfits : literalFits b t) : t.Holds w (integerConstant b t) b.toInt := by
  refine ⟨(literalFits_iff h hresolved).1 hfits, ?_⟩
  have hword : Value.i32 (b.setWidth 32) = .i32 (BitVec.ofInt 32 b.toInt) := by
    rw [← setWidth_ofInt_of_ge (w := 64) (by decide), BitVec.ofInt_toInt]
  have hlong : Value.i64 b = .i64 (BitVec.ofInt 64 b.toInt) := by
    rw [BitVec.ofInt_toInt]
  cases t with
  | usize => cases w <;> cases hresolved
  | void | bool | f32 | f64 => exact absurd h (by decide)
  | i64 | u64 => exact hlong
  | _ => exact hword

variable (w b) in
/-- A literal takes the type that is expected if it fits it. Otherwise it takes a signed type which
    it fits. -/
theorem compileLiteral_int (expected : Ty) :
    ∃ t, compileLiteral w (.int b) expected = ⟨.const (integerConstant b t), t⟩ ∧
      literalFits b t ∧ t.resolve w = t ∧
      (t = expected.resolve w ∨ t.isInteger ∧ ¬ literalFits b (expected.resolve w)) := by
  unfold compileLiteral
  -- The expected type comes first, then `i32`, and `i64` has all that are left.
  by_cases hexpected : literalFits b (expected.resolve w)
  · simp only [if_pos hexpected]
    exact ⟨_, rfl, hexpected, Ty.resolve_resolve w expected, .inl rfl⟩
  simp only [if_neg hexpected]
  by_cases hword : literalFits b .i32
  · simp only [if_pos hword]
    exact ⟨_, rfl, hword, rfl, .inr ⟨rfl, hexpected⟩⟩
  · simp only [if_neg hword]
    exact ⟨_, rfl, rfl, rfl, .inr ⟨rfl, hexpected⟩⟩

/-- A type that has an integer literal is numeric. -/
theorem isNumeric_of_literalFits (h : literalFits b t) (hresolved : t.resolve w = t) :
    t.isNumeric := by
  cases t with
  | usize => cases w <;> cases hresolved
  | void | bool => cases h
  | _ => rfl

/-- What a conversion may be made to has the integer, if what it is made from has it. -/
private theorem literalFits_of_allowed {s : Ty} (hs : s.isInteger) (ht : t.isInteger)
    (hsresolved : s.resolve w = s) (hfits : literalFits b s)
    (hallowed : checkImplicit w s t = .ok ()) : literalFits b (t.resolve w) := by
  have hlossless : lossless w s t := by
    unfold checkImplicit at hallowed
    split at hallowed
    · cases hallowed
    · split at hallowed
      · assumption
      · cases hallowed
  -- What converts without loss keeps all of its numbers, and so this one.
  have hrange := (Ty.lossless_iff (Ty.isIntegral_of_isInteger hs)
    (Ty.isIntegral_of_isInteger ht)).1 hlossless
  rw [literalFits_iff (w := w) (by simpa using ht) (Ty.resolve_resolve w t), Ty.inRange_resolve]
  exact hrange _ ((literalFits_iff hs hsresolved).1 hfits)

end

/-! ## Constants -/

/-- The node is a constant that stands for the integer, unless this is no number of the
    floating-point type that is asked for. -/
def Denoted (w : PointerWidth) (t : Ty) (node : Node) (n : Int) : Prop :=
  ∃ c, node = .const c ∧ ((t.isFloat → ∃ c', t.Denotes w c' n) → t.Denotes w c n)

section

variable {w : PointerWidth} {b : BitVec 64} {t : Ty}

/-- Rounding keeps the integers that a format has. -/
private theorem toRat_ofInt {f : Format} {x : Binary f} {n : Int} (hx : x.isFinite)
    (hn : x.toRat = n) :
    (Binary.ofInt n : Binary f).isFinite ∧ (Binary.ofInt n : Binary f).toRat = n := by
  have hround := Binary.toRat_ofRat_toRat hx
  rw [hn] at hround
  exact hround

/-- The constant for a literal denotes it, in an integer type always and in a float where that has
    the number. -/
private theorem denoted_integerConstant (h : t.isNumeric) (hfits : literalFits b (t.resolve w)) :
    Denoted w t (.const (integerConstant b (t.resolve w))) b.toInt := by
  refine ⟨_, rfl, fun hmember => ?_⟩
  cases hinteger : t.isInteger with
  | true =>
    rw [Ty.denotes_of_isInteger hinteger, ← Ty.holds_resolve]
    exact holds_integerConstant (by simpa using hinteger) (Ty.resolve_resolve w t) hfits
  | false =>
    cases t with
    | f32 =>
      obtain ⟨c, x, -, hx, hn⟩ := hmember rfl
      exact ⟨_, rfl, toRat_ofInt hx hn⟩
    | f64 =>
      obtain ⟨c, x, -, hx, hn⟩ := hmember rfl
      exact ⟨_, rfl, toRat_ofInt hx hn⟩
    | _ => first | exact absurd h (by decide) | cases hinteger

/-- A literal that is compiled for a type, or to it, is a constant of the type if it may be
    converted to it. -/
theorem literal_denoted (h : t.isNumeric) {expected : Ty}
    (hallowed : checkImplicit w (compileLiteral w (.int b) expected).ty t = .ok ())
    (htype : expected = t ∨ (compileLiteral w (.int b) expected).ty = t) :
    let c := compileLiteral w (.int b) expected
    Denoted w t (coerce w c.node c.ty t) b.toInt := by
  obtain ⟨s, heq, hfits, hresolved, hs⟩ := compileLiteral_int w b expected
  rw [heq] at hallowed htype ⊢
  have hsame : s = t.resolve w := by
    rcases htype with rfl | rfl
    · rcases hs with hs | ⟨hs, hmissing⟩
      · exact hs
      · -- What may be converted to the type fits it, and would have taken it at once.
        have hfits' : literalFits b (expected.resolve w) := by
          cases hinteger : expected.isInteger with
          | true => exact literalFits_of_allowed hs hinteger hresolved hfits hallowed
          | false =>
            cases expected with
            | f32 | f64 => rfl
            | _ => first | exact absurd h (by decide) | cases hinteger
        exact absurd hfits' hmissing
    · exact hresolved.symm
  subst hsame
  -- The literal is of the type already, so its conversion does nothing.
  have hnode : coerce w (.const (integerConstant b (t.resolve w))) (t.resolve w) t =
      .const (integerConstant b (t.resolve w)) := by
    unfold coerce coerceResolved
    rw [Ty.resolve_resolve, if_pos rfl]
  dsimp only
  rw [hnode]
  exact denoted_integerConstant h hfits

end

/-! ## Positions -/

section

variable {e : Expr} {n : Int}

/-- A literal compiles to the literal of its number, whatever is expected, unless it is the one that
    wraps around. -/
private theorem compile_integer (he : e.integer? = some n) (hn : n < 2 ^ 63) :
    ∃ b : BitVec 64, b.toInt = n ∧ isLiteral e ∧
      ∀ ctx t, compile ctx e t = pure (compileLiteral ctx.width (.int b) t) := by
  unfold Expr.integer? at he
  split at he
  next span b =>
    cases he
    exact ⟨b, rfl, rfl, fun ctx t => by simp only [compile]⟩
  next span span' b =>
    cases he
    refine ⟨-b, ?_, rfl, fun ctx t => by simp only [compile, literalOf?, compileUnary]⟩
    -- Only the least integer has no opposite.
    apply BitVec.toInt_neg_of_ne_intMin
    rintro rfl
    exact absurd hn (by decide)
  next => cases he

variable {ctx : Context} {t : Ty} {span : Span}

/-- A literal that is compiled for the type of its position and converted to it. -/
private theorem expected_denoted (he : e.integer? = some n) (hn : n < 2 ^ 63)
    (h : t.isNumeric) :
    (compile ctx e t).Unreported fun c =>
      (convertImplicit ctx.width c.node c.ty t e.span).Unreported (Denoted ctx.width t · n) := by
  obtain ⟨b, rfl, -, hcompile⟩ := compile_integer he hn
  rw [hcompile]
  refine unreported_pure fun hquiet => ?_
  obtain ⟨hallowed, hnode⟩ := convertImplicit_quiet hquiet
  rw [hnode]
  exact literal_denoted h hallowed (.inl rfl)

/-- The initial value of a variable that is declared with a type. -/
private theorem lowerDeclarator_denoted (he : e.integer? = some n) (hn : n < 2 ^ 63)
    (h : t.isNumeric) {fc : FunctionContext} {isConst : Bool} {d : Declarator} {st st' : State}
    {ns : List Node} (hdeclared : d.declared = some t) (hinit : d.init = some e)
    (hlower : lowerDeclarator fc isConst d st = .ok ns st') (hquiet : st'.reports = st.reports) :
    ∃ node, ns = [.localSet st.locals.length node] ∧ Denoted fc.settings.width t node n := by
  have htype : declaredType? d = some t := by
    have hvoid : t ≠ .void := by rintro rfl; cases h
    simp [declaredType?, hdeclared, hvoid]
  have hreports := compileInitial_reports hlower hquiet
  obtain ⟨rfl, -⟩ := lowerDeclarator_eq_ok hlower
  rw [htype] at hreports ⊢
  -- A declaration without reports has compiled its initial value for the declared type.
  have hinitial : (compileInitial (fc.context st) d (some t)).Unreported fun r =>
      ∃ node, r = (some node, t) ∧ Denoted fc.settings.width t node n := by
    unfold compileInitial
    rw [hinit]
    refine (expected_denoted he hn h).bind fun c hc => ?_
    exact hc.bind fun node hnode => unreported_pure ⟨node, rfl, hnode⟩
  obtain ⟨node, hr, hnode⟩ := hinitial hreports
  rw [hr]
  exact ⟨node, rfl, hnode⟩

/-- The value that a function returns. -/
private theorem lower_return_denoted (he : e.integer? = some n) (hn : n < 2 ^ 63)
    {fc : FunctionContext} (h : fc.result.isNumeric) {st st' : State} {node : Node}
    (hlower : lower fc (.returnStmt span (some e)) st = .ok node st')
    (hquiet : st'.reports = st.reports) :
    ∃ value, node = .retValue value ∧ Denoted fc.settings.width fc.result value n := by
  rcases lower_return_quiet hlower hquiet with ⟨e', heq, -, hreports, rfl, -⟩ | ⟨heq, -⟩
  · cases heq
    have hvalue : (compileReturned (fc.context st) e fc.result).Unreported
        (Denoted fc.settings.width fc.result · n) :=
      (expected_denoted he hn h).bind fun c hc => hc
    exact ⟨_, rfl, hvalue hreports⟩
  · cases heq

/-- The new value of a variable. -/
private theorem compileUpdate_denoted (he : e.integer? = some n) (hn : n < 2 ^ 63)
    {target : Ident} :
    (compileUpdate ctx .assign target (.ofExpr ctx e) span).Unreported fun update =>
      ∃ v node, update = some (v, node) ∧
        (v.ty.isNumeric → Denoted ctx.width v.ty node n) := by
  unfold compileUpdate
  cases ctx.bindings.find? target.name with
  | none => exact Reported.unreported_report_bind
  | some v =>
    dsimp only
    split
    · exact Reported.unreported_report_bind
    · refine (unreported_self _).bind ?_
      rintro _ ⟨hcompile, rfl⟩
      refine (unreported_self _).bind ?_
      rintro _ ⟨hconvert, rfl⟩
      exact unreported_pure ⟨v, _, rfl, fun h => expected_denoted he hn h hcompile hconvert⟩

/-- An argument of a call. -/
private theorem compileArgs_denoted (he : e.integer? = some n) (hn : n < 2 ^ 63)
    (h : t.isNumeric) {args : List Expr} {ts : List Ty} {i : Nat} (harg : args[i]? = some e)
    (hparam : ts[i]? = some t) :
    (compileArgs ctx args ts).Unreported fun nodes =>
      ∃ node, nodes[i]? = some node ∧ Denoted ctx.width t node n := by
  -- The induction is on the arguments, down to the one in question.
  induction args generalizing ts i with
  | nil => cases harg
  | cons arg args ih =>
    cases ts with
    | nil => cases hparam
    | cons t' ts =>
      simp only [compileArgs]
      cases i with
      | zero =>
        cases harg
        cases hparam
        refine (expected_denoted he hn h).bind fun c hc => ?_
        refine hc.bind fun node hnode => ?_
        refine (unreported_self _).bind fun nodes _ => unreported_pure ⟨node, rfl, hnode⟩
      | succ i =>
        refine (unreported_self _).bind fun c _ => ?_
        refine (unreported_self _).bind fun node _ => ?_
        exact (ih harg hparam).bind fun nodes hnodes => unreported_pure hnodes

end

/-! ## Operands -/

section

variable {w : PointerWidth} {s t : Ty} {e other : Operand} {b : BitVec 64} {op : BinaryOp}
  {expected : Ty} {span : Span}

/-- A number and anything else meet in a type that has numbers. -/
private theorem isNumeric_unify (h : s.isNumeric ∨ t.isNumeric) : (unify w s t).isNumeric := by
  revert h
  cases w <;> cases s <;> cases t <;> decide

variable (op) in
/-- A literal is compiled for the type in which the operands meet, unless it has the type anyway. -/
private theorem retyped_at {hint common : Ty} (hliteral : e.isLiteral)
    (hcommon : common.isNumeric) :
    let t := if (e.compile hint).value.ty ≠ common ∧ e.isLiteral then common else hint
    let operand := if common = .bool && !op.isComparison then .i32 else common
    operand.isNumeric ∧ (t = operand ∨ (e.compile t).value.ty = operand) := by
  have hbool : common ≠ .bool := by rintro rfl; cases hcommon
  simp only [hbool, decide_false, Bool.false_and, Bool.false_eq_true, if_false, hliteral, and_true]
  refine ⟨hcommon, ?_⟩
  by_cases hty : (e.compile hint).value.ty = common
  · exact .inr (by simp [hty])
  · exact .inl (by simp [hty])

/-- A literal on either side of an operator. -/
private theorem compileStrict_denoted (he : ∀ t, e.compile t = pure (compileLiteral w (.int b) t))
    (hliteral : e.isLiteral) (other : Operand) :
    ((compileStrict w op e other expected span).Unreported fun c =>
      let t := (meeting w op e other expected).operand
      ∃ code l r, c.node = operatorNode w op t code l r ∧ Denoted w t l b.toInt) ∧
    ((compileStrict w op other e expected span).Unreported fun c =>
      let t := (meeting w op other e expected).operand
      ∃ code l r, c.node = operatorNode w op t code l r ∧ Denoted w t r b.toInt) := by
  have hnumeric (t : Ty) : (e.compile t).value.ty.isNumeric := by
    obtain ⟨s, heq, hfits, hresolved, -⟩ := compileLiteral_int w b t
    rw [he, Reported.value_pure, heq]
    exact isNumeric_of_literalFits hfits hresolved
  have hdenoted {t target : Ty} (hmet : e.Met w t target)
      (h : target.isNumeric ∧ (t = target ∨ (e.compile t).value.ty = target)) :
      Denoted w target (coerce w (e.compile t).value.node (e.compile t).value.ty target)
        b.toInt := by
    obtain ⟨htarget, ht⟩ := h
    have hallowed := hmet.allowed
    rw [he, Reported.value_pure] at hallowed ht ⊢
    exact literal_denoted htarget hallowed ht
  -- The literal may be on either side, and meets the type of the operation on both.
  constructor
  · intro hquiet
    obtain ⟨hmet, -, code, -, hc⟩ := compileStrict_quiet hquiet
    have hleft := hdenoted hmet (retyped_at op hliteral (isNumeric_unify (.inl (hnumeric _))))
    exact ⟨code, _, _, congrArg Compiled.node hc, hleft⟩
  · intro hquiet
    obtain ⟨-, hmet, code, -, hc⟩ := compileStrict_quiet hquiet
    have hright := hdenoted hmet (retyped_at op hliteral (isNumeric_unify (.inr (hnumeric _))))
    exact ⟨code, _, _, congrArg Compiled.node hc, hright⟩

end

/-! ## All positions -/

/-- An expression denotes an integer in every position where a numeric type is expected of it, if
    nothing is reported. -/
structure Kept (e : Expr) (n : Int) : Prop where
  /-- The initial value of a variable that is declared with a type. -/
  initial (fc : FunctionContext) (isConst : Bool) (d : Declarator) (t : Ty) (st st' : State)
    (ns : List Node) (hdeclared : d.declared = some t) (hinit : d.init = some e)
    (h : t.isNumeric) (hlower : lowerDeclarator fc isConst d st = .ok ns st')
    (hquiet : st'.reports = st.reports) :
    ∃ node, ns = [.localSet st.locals.length node] ∧ Denoted fc.settings.width t node n
  /-- The value that a function returns. -/
  result (fc : FunctionContext) (span : Span) (st st' : State) (node : Node)
    (h : fc.result.isNumeric) (hlower : lower fc (.returnStmt span (some e)) st = .ok node st')
    (hquiet : st'.reports = st.reports) :
    ∃ value, node = .retValue value ∧ Denoted fc.settings.width fc.result value n
  /-- The new value of a variable. -/
  update (ctx : Context) (target : Ident) (span : Span) :
    (compileUpdate ctx .assign target (.ofExpr ctx e) span).Unreported fun update =>
      ∃ v node, update = some (v, node) ∧ (v.ty.isNumeric → Denoted ctx.width v.ty node n)
  /-- An argument of a call. -/
  argument (ctx : Context) (args : List Expr) (ts : List Ty) (i : Nat) (t : Ty)
    (harg : args[i]? = some e) (hparam : ts[i]? = some t) (h : t.isNumeric) :
    (compileArgs ctx args ts).Unreported fun nodes =>
      ∃ node, nodes[i]? = some node ∧ Denoted ctx.width t node n
  /-- The left operand of an operator, of a comparison or of an arithmetic one. -/
  left (ctx : Context) (op : BinaryOp) (other : Operand) (expected : Ty) (span : Span)
    (hop : op.isLogical = false) :
    (compileBinary ctx.width op (.ofExpr ctx e) other expected span).Unreported fun c =>
      let t := (meeting ctx.width op (.ofExpr ctx e) other expected).operand
      ∃ code l r, c.node = operatorNode ctx.width op t code l r ∧ Denoted ctx.width t l n
  /-- The right operand of an operator, also of the one that an assignment applies. -/
  right (ctx : Context) (op : BinaryOp) (other : Operand) (expected : Ty) (span : Span)
    (hop : op.isLogical = false) :
    (compileBinary ctx.width op other (.ofExpr ctx e) expected span).Unreported fun c =>
      let t := (meeting ctx.width op other (.ofExpr ctx e) expected).operand
      ∃ code l r, c.node = operatorNode ctx.width op t code l r ∧ Denoted ctx.width t r n

/-- All operators but the logical ones are strict. -/
private theorem compileBinary_of_not_isLogical {w : PointerWidth} {op : BinaryOp}
    (h : op.isLogical = false) (left right : Operand) (expected : Ty) (span : Span) :
    compileBinary w op left right expected span = compileStrict w op left right expected span := by
  cases op <;> first | rfl | cases h

/-- An integer literal is not changed unless something is reported, or the number is missing from
    the floating-point type that is expected. -/
theorem literal_kept {e : Expr} {n : Int} (he : e.integer? = some n) (hn : n < 2 ^ 63) :
    Kept e n where
  initial fc isConst d t st st' ns hdeclared hinit h hlower hquiet :=
    lowerDeclarator_denoted he hn h hdeclared hinit hlower hquiet
  result fc span st st' node h hlower hquiet := lower_return_denoted he hn h hlower hquiet
  update ctx target span := compileUpdate_denoted he hn
  argument ctx args ts i t harg hparam h := compileArgs_denoted he hn h harg hparam
  left ctx op other expected span hop := by
    obtain ⟨b, rfl, hliteral, hcompile⟩ := compile_integer he hn
    rw [compileBinary_of_not_isLogical hop]
    exact (compileStrict_denoted (hcompile ctx) hliteral other).1
  right ctx op other expected span hop := by
    obtain ⟨b, rfl, hliteral, hcompile⟩ := compile_integer he hn
    rw [compileBinary_of_not_isLogical hop]
    exact (compileStrict_denoted (hcompile ctx) hliteral other).2

/-- A declaration of `x` with a type and an initial value. -/
def declaredAs (t : Ty) (e : Expr) : Declarator := ⟨⟨.empty, "x"⟩, some t, some e⟩

/-- An integer literal under a minus sign. -/
def minusLiteral (b : BitVec 64) : Expr := .unary .empty .minus (.literal .empty (.int b))

/-- The last integer up to which `f32` has them all is kept, under a minus sign too. -/
theorem minus_literal_kept :
    let e := minusLiteral 16777216
    ∃ c st, e.integer? = some (-16777216) ∧
      lowerDeclarator ⟨{}, {}, .void⟩ false (declaredAs .f32 e) {} =
        .ok [.localSet 0 (.const c)] st ∧
      st.reports = [] ∧ Ty.f32.Denotes .w32 c (-16777216) := by
  intro e
  have he : e.integer? = some (-16777216) := rfl
  have hkept := literal_kept he (by decide)
  obtain ⟨node, hnode, c, rfl, hdenotes⟩ := hkept.initial ⟨{}, {}, .void⟩ false
    (declaredAs .f32 e) .f32 {} _ _ rfl rfl rfl rfl rfl
  refine ⟨c, _, he, congrArg (EStateM.Result.ok · _) hnode, rfl, hdenotes fun _ => ?_⟩
  exact ⟨_, Binary.ofInt (-16777216), rfl, by decide +kernel, by decide +kernel⟩

/-- The first integer past the significands of `f32` is rounded, and nothing is reported. -/
theorem literal_rounded :
    ∃ c st, lowerDeclarator ⟨{}, {}, .void⟩ false
        (declaredAs .f32 (.literal .empty (.int 16777217))) {} = .ok [.localSet 0 (.const c)] st ∧
      st.reports = [] ∧ ¬ Ty.f32.Denotes .w32 c 16777217 := by
  refine ⟨.f32 (Binary.ofInt 16777217), _, rfl, rfl, ?_⟩
  rintro ⟨x, heq, -, hx⟩
  cases heq
  exact absurd hx (by decide +kernel)

/-- The opposite of the least integer of 64 bits is no such integer: it becomes the least one again,
    and nothing is reported. -/
theorem literal_wrapped :
    let e := minusLiteral (BitVec.intMin 64)
    ∃ c st, e.integer? = some (2 ^ 63) ∧
      lowerDeclarator ⟨{}, {}, .void⟩ false (declaredAs .i64 e) {} =
        .ok [.localSet 0 (.const c)] st ∧
      st.reports = [] ∧ Ty.i64.Denotes .w32 c (-2 ^ 63) := by
  refine ⟨.i64 (BitVec.intMin 64), _, rfl, rfl, rfl, ?_⟩
  exact ⟨by decide, rfl⟩

end Weir.Lowering
