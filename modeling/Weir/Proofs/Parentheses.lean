import Weir.Proofs.MatchingPrograms

/-!
# Parentheses

Parentheses group the parts of an expression in the text, and the tree shows that grouping anyway.
Without its parentheses an expression is a literal just when it was one, and it compiles to the
same code for every type, with the same problems in the same order. So a program without its
parentheses is lowered to the same module, or fails with the same error.

There is one exception. A minus sign takes a number right after it into a constant, but not one in
parentheses, which it subtracts from zero. The range of the type that is expected is asked of the
number without its sign then: `-128` is a constant of type `i8`, and `-(128)` is an `i32` that is
reported.

## Key results

- `Program.hasParens_of_mem_bare`: no parentheses are left
- `compile_bare`, `compileDiscarded_bare`: compiling an expression without its parentheses
- `lowerProgram_bare`: lowering a program without its parentheses, if no minus sign stands before a
  number in parentheses
- `negated_reported`: a program where one does
-/

namespace Weir

namespace Source

/-! ## Without parentheses -/

mutual

/-- The expression without its parentheses. -/
def Expr.bare : Expr → Expr
  | .literal span value => .literal span value
  | .name span x => .name span x
  | .binary span op left right => .binary span op left.bare right.bare
  | .unary span op operand => .unary span op operand.bare
  | .assign span op target value => .assign span op target value.bare
  | .call span callee args => .call span callee (Expr.bareAll args)
  | .cast span operand t => .cast span operand.bare t
  | .paren _ inner => inner.bare
termination_by structural e => e

/-- The expressions without their parentheses. -/
def Expr.bareAll : List Expr → List Expr
  | [] => []
  | e :: es => e.bare :: Expr.bareAll es
termination_by structural es => es

end

/-- The program without the parentheses in its expressions. -/
def Program.bare (p : Program) : Program := p.mapExprs Expr.bare

mutual

/-- Whether there are parentheses in an expression. -/
def Expr.hasParens : Expr → Bool
  | .literal .. | .name .. => false
  | .binary _ _ left right => left.hasParens || right.hasParens
  | .unary _ _ e | .assign _ _ _ e | .cast _ e _ => e.hasParens
  | .call _ _ args => Expr.anyHasParens args
  | .paren .. => true
termination_by structural e => e

/-- Whether there are parentheses in expressions. -/
def Expr.anyHasParens : List Expr → Bool
  | [] => false
  | e :: es => e.hasParens || Expr.anyHasParens es
termination_by structural es => es

end

mutual

/-- Nothing in a bare expression is in parentheses. -/
private theorem Expr.hasParens_bare : (e : Expr) → e.bare.hasParens = false
  | .literal .. | .name .. => by simp only [Expr.bare, Expr.hasParens]
  | .binary _ _ l r => by
    simp only [Expr.bare, Expr.hasParens, l.hasParens_bare, r.hasParens_bare, Bool.or_self]
  | .unary _ _ e | .assign _ _ _ e | .cast _ e _ => by
    simp only [Expr.bare, Expr.hasParens, e.hasParens_bare]
  | .call _ _ args => by
    simp only [Expr.bare, Expr.hasParens, Expr.anyHasParens_bareAll args]
  | .paren _ inner => by
    simp only [Expr.bare]
    exact inner.hasParens_bare
termination_by structural e => e

private theorem Expr.anyHasParens_bareAll : (es : List Expr) →
    Expr.anyHasParens (Expr.bareAll es) = false
  | [] => by simp only [Expr.bareAll, Expr.anyHasParens]
  | e :: es => by
    simp only [Expr.bareAll, Expr.anyHasParens, e.hasParens_bare, Expr.anyHasParens_bareAll es,
      Bool.or_self]
termination_by structural es => es

end

/-- No parentheses are left in any expression. -/
theorem Program.hasParens_of_mem_bare {p : Program} {e : Expr} (h : e ∈ p.bare.exprs) :
    e.hasParens = false := by
  rw [Program.bare, Program.exprs_mapExprs] at h
  obtain ⟨e, -, rfl⟩ := List.mem_map.1 h
  exact e.hasParens_bare

/-! ## Signs and numbers -/

/-- Whether an expression is an integer or a floating-point literal. -/
def Expr.isNumber : Expr → Bool
  | .literal _ (.int _) | .literal _ (.float _) => true
  | _ => false

mutual

/-- Whether no minus sign in an expression stands before a number in parentheses. -/
def Expr.signsBare : Expr → Bool
  | .literal .. | .name .. => true
  | .binary _ _ left right => left.signsBare && right.signsBare
  | .unary _ op operand =>
    (op ≠ .minus || !operand.bare.isNumber || operand.isNumber) && operand.signsBare
  | .assign _ _ _ e | .cast _ e _ | .paren _ e => e.signsBare
  | .call _ _ args => Expr.allSignsBare args
termination_by structural e => e

/-- Whether no minus sign in expressions stands before a number in parentheses. -/
def Expr.allSignsBare : List Expr → Bool
  | [] => true
  | e :: es => e.signsBare && Expr.allSignsBare es
termination_by structural es => es

end

end Source

namespace Lowering

open Weir.Source (Expr PointerWidth Program Span Ty UnaryOp)

/-! ## Expressions -/

/-- Without its parentheses an expression is a literal just when it was one. -/
private theorem isLiteral_bare : (e : Expr) → isLiteral e.bare = isLiteral e
  | .paren _ inner => by
    simp only [Expr.bare, isLiteral]
    exact isLiteral_bare inner
  | .unary _ op operand => by
    cases op with
    | minus | plus =>
      simp only [Expr.bare, isLiteral]
      exact isLiteral_bare operand
    | not | bitNot => simp only [Expr.bare, isLiteral]
  | .literal .. | .name .. | .binary .. | .assign .. | .call .. | .cast .. => by
    simp only [Expr.bare, isLiteral]

private theorem length_bareAll (es : List Expr) : (Expr.bareAll es).length = es.length := by
  induction es with
  | nil => rfl
  | cons e es ih => rw [Expr.bareAll, List.length_cons, List.length_cons, ih]

/-- Only a minus sign asks whether its operand is a literal, and only a number is an answer. -/
private theorem compileUnary_literalOf? {w : PointerWidth} {op : UnaryOp} {e : Expr}
    (h : op = .minus → e.isNumber = false) (operand : Operand) (expected : Ty) (span : Span) :
    compileUnary w op operand (literalOf? e) expected span =
      compileUnary w op operand none expected span := by
  cases op with
  | plus | not | bitNot => rfl
  | minus =>
    cases e with
    | literal _ value =>
      cases value with
      | boolean b => rfl
      | int _ | float _ => cases h rfl
    | _ => rfl

/-- An expression as an operand, if it compiles alike without its parentheses. -/
private theorem operand_bare {ctx : Context} {e : Expr}
    (h : ∀ expected, (compile ctx e expected).Matches (compile ctx e.bare expected)) :
    Operand.Matches (.ofExpr ctx e) (.ofExpr ctx e.bare) :=
  ⟨h, isLiteral_bare e⟩

/-- An operator on an operand that compiles alike without its parentheses. -/
private theorem compileUnary_bare {w : PointerWidth} {op : UnaryOp} {operand operand' : Operand}
    {e : Expr} (h : operand.Matches operand')
    (hsign : (op ≠ .minus || !e.bare.isNumber || e.isNumber) = true) (expected : Ty)
    (span : Span) :
    (compileUnary w op operand (literalOf? e) expected span).Matches
      (compileUnary w op operand' (literalOf? e.bare) expected span) := by
  by_cases hnumber : e.isNumber = true
  · -- A number that is not in parentheses is the same without them.
    have hbare : e.bare = e := by
      cases e with
      | literal => rfl
      | _ => cases hnumber
    rw [hbare]
    exact compileUnary_matches op h (literalOf? e) expected span span
  · have hnumber : e.isNumber = false := Bool.eq_false_iff.2 hnumber
    have hbare : op = .minus → e.bare.isNumber = false := by
      rintro rfl
      simpa [hnumber] using hsign
    rw [compileUnary_literalOf? fun _ => hnumber, compileUnary_literalOf? hbare]
    exact compileUnary_matches op h none expected span span

mutual

/-- An expression without its parentheses compiles to the same code, with the same problems, if no
    minus sign stands before a number in parentheses. The induction is on the expression. -/
theorem compile_bare (ctx : Context) : (e : Expr) → e.signsBare → ∀ expected,
    (compile ctx e expected).Matches (compile ctx e.bare expected)
  | .literal .., _, _ | .name .., _, _ => by
    simp only [Expr.bare]
    exact .refl _
  | .paren _ inner, h, expected => by
    simp only [Expr.signsBare] at h
    simp only [Expr.bare, compile]
    exact compile_bare ctx inner h expected
  | .unary span op operand, h, expected => by
    simp only [Expr.signsBare, Bool.and_eq_true] at h
    simp only [Expr.bare, compile]
    -- The sign of a number has to stand before the number itself.
    exact compileUnary_bare (operand_bare (compile_bare ctx operand h.2)) h.1 expected span
  | .binary span op left right, h, expected => by
    simp only [Expr.signsBare, Bool.and_eq_true] at h
    simp only [Expr.bare, compile]
    exact compileBinary_matches op (operand_bare (compile_bare ctx left h.1))
      (operand_bare (compile_bare ctx right h.2)) expected span span
  | .assign span op target value, h, _ => by
    simp only [Expr.signsBare] at h
    simp only [Expr.bare, compile]
    have hvalue := operand_bare (compile_bare ctx value h)
    apply (compileUpdate_matches ctx op target hvalue span span).bind
    exact fun update => .refl _
  | .call span callee args, h, expected => by
    simp only [Expr.signsBare] at h
    simp only [Expr.bare, compile, length_bareAll]
    -- The callee is found by its name, and what is reported does not depend on the parentheses.
    cases ctx.functions.find? callee.name with
    | none => exact .refl _
    | some s =>
      dsimp only
      split
      · exact .refl _
      · exact (compileArgs_bare ctx args h s.params).bind fun values => .refl _
  | .cast _ operand t, h, _ => by
    simp only [Expr.signsBare] at h
    simp only [Expr.bare, compile]
    apply (compile_bare ctx operand h t).bind
    intro c
    -- The two conversions differ in the places they report at.
    apply (convertExplicit_matches c.node c.ty t operand.span operand.bare.span).bind
    exact fun node => .refl _
termination_by structural e => e

/-- The arguments of a call without their parentheses. -/
private theorem compileArgs_bare (ctx : Context) :
    (args : List Expr) → Expr.allSignsBare args → ∀ ts,
    (compileArgs ctx args ts).Matches (compileArgs ctx (Expr.bareAll args) ts)
  | [], _, _ => by
    simp only [Expr.bareAll]
    exact .refl _
  | _ :: _, _, [] => by
    simp only [Expr.bareAll, compileArgs]
    exact .refl _
  | arg :: args, h, t :: ts => by
    simp only [Expr.allSignsBare, Bool.and_eq_true] at h
    simp only [Expr.bareAll, compileArgs]
    apply (compile_bare ctx arg h.1 t).bind
    intro c
    -- What does not fit is reported at the argument, in parentheses or not.
    apply (convertImplicit_matches c.node c.ty t arg.span arg.bare.span).bind
    intro node
    exact (compileArgs_bare ctx args h.2 ts).bind fun nodes => .refl _
termination_by structural args => args

end

/-- An expression whose value is not used. An assignment is looked for in parentheses too. The
    induction is on the parentheses around the expression. -/
theorem compileDiscarded_bare (ctx : Context) : (e : Expr) → e.signsBare →
    (compileDiscarded ctx e).Matches (compileDiscarded ctx e.bare)
  | .paren _ inner, h => by
    simp only [Expr.signsBare] at h
    simp only [Expr.bare, compileDiscarded]
    exact compileDiscarded_bare ctx inner h
  -- An assignment whose value is not used is compiled to another node.
  | .assign span op target value, h => by
    simp only [Expr.signsBare] at h
    simp only [Expr.bare, compileDiscarded]
    have hvalue := operand_bare (compile_bare ctx value h)
    apply (compileUpdate_matches ctx op target hvalue span span).bind
    exact fun update => .refl _
  | .literal .., h | .name .., h | .unary .., h | .binary .., h | .call .., h | .cast .., h => by
    have hvalue := compile_bare ctx _ h .void
    simp only [Expr.bare] at hvalue
    simp only [Expr.bare, compileDiscarded]
    exact hvalue.bind fun c => .refl _

/-! ## Programs -/

/-- An expression compiles alike without its parentheses, whatever is in scope and whether or not
    its value is used. -/
private theorem interchangeable_bare {e : Expr} (h : e.signsBare) : Interchangeable e e.bare :=
  ⟨fun ctx expected => compile_bare ctx e h expected, fun ctx => compileDiscarded_bare ctx e h⟩

/-- A program is lowered to the same module without its parentheses, or fails with the same error,
    and the same problems are reported in the same order, if no minus sign stands before a number
    in parentheses. -/
theorem lowerProgram_bare (settings : Settings) (p : Program)
    (h : ∀ e ∈ p.exprs, e.signsBare) :
    (lowerProgram settings p.bare).map Lowered.outline =
      (lowerProgram settings p).map Lowered.outline :=
  lowerProgram_mapExprs settings p fun e he => interchangeable_bare (h e he)

/-- A program with parentheses around an assignment, a variable and literals, also under signs that
    are not right before a number. The constant does not fit its variable. -/
def grouping : Program where
  imports := []
  functions := [{
    name := "main"
    params := [⟨"n", .i64⟩]
    result := .i32
    bodySpan := .empty
    body := [
      .varDecl .empty .letVar [⟨⟨.empty, "k"⟩, some .i8,
        some (.paren .empty (.unary .empty .minus (.paren .empty
          (.unary .empty .minus (.literal .empty (.int 200))))))⟩],
      .exprStmt .empty (.paren .empty (.assign .empty .assign ⟨.empty, "n"⟩
        (.paren .empty (.literal .empty (.int 7))))),
      .returnStmt .empty (some (.binary .empty .add
        (.paren .empty (.literal .empty (.int 1)))
        (.unary .empty .minus (.paren .empty (.name .empty "k")))))]
    isExported := true
    span := .empty }]

/-- Signs stand before parentheses with a signed number and with a name in them, and the conversion
    is reported either way. -/
theorem grouping_bare :
    (lowerProgram {} grouping).map (fun r => r.outline.2) =
        .ok [.implicitConversion .i32 .i8] ∧
      (∀ e ∈ grouping.exprs, e.signsBare) ∧
      (lowerProgram {} grouping.bare).map Lowered.outline =
        (lowerProgram {} grouping).map Lowered.outline := by
  have hsigns : ∀ e ∈ grouping.exprs, e.signsBare := by decide
  exact ⟨by rfl, hsigns, lowerProgram_bare {} grouping hsigns⟩

/-- A program that gives a variable of type `i8` the least value of the type, with parentheses
    around the number. -/
def negated : Program where
  imports := []
  functions := [{
    name := "main"
    params := []
    result := .void
    bodySpan := .empty
    body := [.varDecl .empty .letVar [⟨⟨.empty, "x"⟩, some .i8,
      some (.unary .empty .minus (.paren .empty (.literal .empty (.int 128))))⟩]]
    isExported := true
    span := .empty }]

/-- The number in parentheses is reported, as `128` is not of type `i8`. Without them nothing is. -/
theorem negated_reported :
    (lowerProgram {} negated).map (fun r => r.outline.2) =
        .ok [.implicitConversion .i32 .i8] ∧
      (lowerProgram {} negated.bare).map (fun r => r.outline.2) = .ok [] ∧
      (lowerProgram {} negated.bare).map Lowered.outline ≠
        (lowerProgram {} negated).map Lowered.outline := by
  have hreported : (lowerProgram {} negated).map (fun r => r.outline.2) =
      .ok [.implicitConversion .i32 .i8] := by rfl
  have hquiet : (lowerProgram {} negated.bare).map (fun r => r.outline.2) = .ok [] := by rfl
  refine ⟨hreported, hquiet, fun hsame => ?_⟩
  -- The problems would be the same too.
  have hproblems := congrArg (Except.map Prod.snd) hsame
  have hsnd : ∀ r : Except Error Lowered,
      (r.map Lowered.outline).map Prod.snd = r.map fun r => r.outline.2 := by
    intro r
    cases r <;> rfl
  rw [hsnd, hsnd, hquiet, hreported] at hproblems
  cases hproblems

end Lowering

end Weir
