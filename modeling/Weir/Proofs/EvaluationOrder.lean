import Weir.Proofs.QuietCode
import Weir.Proofs.SourceEvaluation

/-!
# Compiled code evaluates its source

Running the code of an expression is evaluating the expression, whatever calls do and whatever state
the run starts in. Since calls and variables can tell in which order they are used, the code makes
the calls and assignments of its source in the order of the source, each once, up to the first trap;
and since the code of a conversion contains its operand once, this survives conversions. An operand
that is compiled twice is used once.

## Key results

- `evalNode_convertValue`: the code of a conversion converts the value of its operand
- `compileStrict_quiet`: the code of an operator between two operands, if nothing is reported
- `compile_follows`, `compileArgs_follow`: compiled expressions do what their sources do
- `compile_evaluates`: so do conditions and expressions whose values are not used
-/

namespace Weir.Machine

open Weir.Code

variable {σ α β : Type}

namespace Run

/-- Insisting on a value is a check after the run. -/
theorem value_eq (run : Run σ (Option Value)) :
    value run = run >>= fun v => ofExcept (present v) := by
  unfold value
  congr 1
  funext v
  cases v <;> rfl

private theorem ofExcept_pure (a : α) : (ofExcept (pure a) : Run σ α) = pure a := rfl

/-- Steps that can only trap are one such step. -/
private theorem ofExcept_bind (x : Except Trap α) (f : α → Except Trap β) :
    (ofExcept (x >>= f) : Run σ β) = ofExcept x >>= fun a => ofExcept (f a) := by
  cases x with
  | ok a => exact (pure_bind a fun a => (ofExcept (f a) : Run σ β)).symm
  | error reason => rfl

/-- An operator on the value of a run. -/
private theorem ofExcept_onPresent (run : Run σ (Option Value)) (f : Value → Except Trap Value) :
    (do
      let v ← value run
      let r ← ofExcept (f v)
      pure (some r)) = run >>= fun v => ofExcept (onPresent f v) := by
  rw [value_eq, bind_assoc]
  congr 1
  funext v
  simp only [onPresent, ofExcept_bind, ofExcept_pure]

end Run

variable (call : Nat → List Value → Run σ (Option Value)) (clock : Nat)

/-- A unary operator is applied after its operand has run. -/
private theorem evalNode_unary_eq (op : UnaryOp) (slot : Slot) (n : Node) :
    evalNode call clock (.unary op slot n) =
      evalNode call clock n >>= fun v => .ofExcept (onPresent op.eval v) := by
  simp only [evalNode]
  exact Run.ofExcept_onPresent _ _

/-- A conversion is applied after its operand has run. -/
private theorem evalNode_convert_eq (c : Conversion) (n : Node) :
    evalNode call clock (.convert c n) =
      evalNode call clock n >>= fun v => .ofExcept (onPresent c.eval v) := by
  simp only [evalNode]
  exact Run.ofExcept_onPresent _ _

/-- A constant operand on the right does nothing. -/
private theorem evalNode_binary_const (op : BinaryOp) (slot : Slot) (n : Node) (x : Value) :
    evalNode call clock (.binary op slot n (.const x)) =
      evalNode call clock n >>= fun v => .ofExcept (onPresent (op.eval · x) v) := by
  simp only [evalNode, Run.value_pure_some, pure_bind]
  exact Run.ofExcept_onPresent _ _

/-- A constant operand on the left does nothing. -/
private theorem evalNode_const_binary (op : BinaryOp) (slot : Slot) (n : Node) (x : Value) :
    evalNode call clock (.binary op slot (.const x) n) =
      evalNode call clock n >>= fun v => .ofExcept (onPresent (op.eval x ·) v) := by
  simp only [evalNode, Run.value_pure_some, pure_bind]
  exact Run.ofExcept_onPresent _ _

end Weir.Machine

namespace Weir.Lowering

open Weir.Code (Node Value)
open Weir.Machine
open Weir.Source (AssignOp BinaryOp Expr Ident Literal PointerWidth Span Ty UnaryOp)
open Reported (unreported_pure unreported_report_bind)

/-! ## Conversions -/

section

variable {σ : Type} (call : Nat → List Value → Run σ (Option Value)) (clock : Nat)
  (w : PointerWidth)

/-- The code that brings a value into the range of its type does what the type says. -/
private theorem evalNode_narrow (n : Node) (t : Ty) :
    evalNode call clock (normalize n t) =
      evalNode call clock n >>= fun v => .ofExcept (narrow t v) := by
  cases t with
  | i8 | i16 => exact evalNode_convert_eq call clock _ n
  | u8 | u16 | bool => exact evalNode_binary_const call clock _ _ n _
  | _ => exact (bind_pure _).symm

/-- The slot of a value is changed by the one operator that there is for it. -/
private theorem changeSlot_eq (n : Node) (s t : Ty) :
    changeSlot w n s t = match slotChange? w s t with
      | some c => .convert c n
      | none => n := by
  unfold changeSlot slotChange?
  repeat' split
  all_goals first | rfl | simp_all

/-- The code that changes the slot of a value changes the value. -/
private theorem evalNode_changeValue (n : Node) (s t : Ty) :
    evalNode call clock (changeSlot w n s t) =
      evalNode call clock n >>= fun v => .ofExcept (changeValue w s t v) := by
  unfold changeValue
  rw [changeSlot_eq]
  cases slotChange? w s t with
  | some c => exact evalNode_convert_eq call clock c n
  | none => exact (bind_pure _).symm

/-- Code whose value is missing runs and then traps. -/
private theorem evalNode_absent (n : Node) :
    evalNode call clock (absent n) =
      evalNode call clock n >>= fun _ => .ofExcept (.error .unreachable) := by
  simp only [absent, evalNode, evalAll]
  rfl

/-- The code of a conversion runs its operand once and converts what it yields. -/
theorem evalNode_convertValue (n : Node) (s t : Ty) :
    evalNode call clock (coerce w n s t) =
      evalNode call clock n >>= fun v => .ofExcept (convertValue w s t v) := by
  unfold coerce convertValue coerceResolved convertResolved
  generalize s.resolve w = s
  generalize t.resolve w = t
  -- The cases are those of the conversion: the same type, a target or a source without value, a
  -- truth test, and a change of slot.
  by_cases heq : s = t
  · simp only [if_pos heq]
    exact (bind_pure _).symm
  simp only [if_neg heq]
  cases ht : t.isVoid with
  | true =>
    simp only [if_true, evalNode]
    rfl
  | false =>
    cases hs : s.isVoid with
    | true =>
      simp only [Bool.false_eq_true, if_false, if_true]
      exact evalNode_absent call clock n
    | false =>
      simp only [Bool.false_eq_true, if_false]
      by_cases hbool : t = .bool
      · simp only [if_pos hbool, truthTest]
        cases Value.zero? (s.slot w) with
        | some zero => exact evalNode_binary_const call clock _ _ n zero
        | none => exact evalNode_absent call clock n
      · simp only [if_neg hbool, Run.ofExcept_bind]
        rw [← bind_assoc, ← evalNode_changeValue]
        split
        · exact evalNode_narrow call clock _ t
        · exact (bind_pure _).symm

end

/-! ## Literals -/

/-- A literal compiles to the constant that it stands for. -/
theorem compileLiteral_node (w : PointerWidth) (literal : Literal) (expected : Ty) :
    (compileLiteral w literal expected).node = .const (literalValue w literal expected) := by
  cases literal with
  | int n => rfl
  | boolean b => rfl
  | float x =>
    unfold compileLiteral literalValue
    dsimp only
    split <;> rfl

/-! ## Operands -/

namespace Reported

variable {α : Type}

/-- Where nothing is reported, there is a value, and nothing was reported about it. -/
theorem unreported_self (r : Reported α) :
    r.Unreported fun a => r.reports = [] ∧ a = r.value :=
  fun h => ⟨h, rfl⟩

end Reported

open Reported (unreported_self)

section

variable {w : PointerWidth} {op : BinaryOp} {left right : Operand} {expected : Ty} {span : Span}

/-- A literal operand that is compiled again is used as it was compiled last. -/
private theorem Operand.retype_quiet (e : Operand) {hint common : Ty}
    (h : (e.compile hint).reports = []) :
    (e.retype (e.compile hint).value common).Unreported fun c =>
      let t := if (e.compile hint).value.ty ≠ common ∧ e.isLiteral then common else hint
      (e.compile t).reports = [] ∧ c = (e.compile t).value := by
  unfold Operand.retype
  split
  · exact unreported_self _
  · exact unreported_pure ⟨h, rfl⟩

/-- A conversion that is not reported is allowed. -/
theorem convertImplicit_quiet {n : Node} {s t : Ty} :
    (convertImplicit w n s t span).Unreported fun n' =>
      checkImplicit w s t = .ok () ∧ n' = coerce w n s t := by
  unfold convertImplicit
  cases checkImplicit w s t with
  | ok u => exact unreported_pure ⟨rfl, rfl⟩
  | error e => cases e <;> exact unreported_report_bind

/-- The operand is compiled for one type and converted to another, and nothing is reported. -/
structure Operand.Met (w : PointerWidth) (e : Operand) (expected target : Ty) : Prop where
  quiet : (e.compile expected).reports = []
  allowed : checkImplicit w (e.compile expected).value.ty target = .ok ()

/-- The code of an operator on two operands of a type: what it calculates is brought into the range
    of the type. -/
def operatorNode (w : PointerWidth) (op : BinaryOp) (t : Ty) (code : Code.BinaryOp) (l r : Node) :
    Node :=
  if op.isComparison then .binary code (t.slot w) l r
  else normalize (.binary code (t.slot w) l r) t

/-- An operator between two operands compiles both of them once for its code, each for one type, if
    nothing is reported. -/
theorem compileStrict_quiet :
    (compileStrict w op left right expected span).Unreported fun c =>
      let m := meeting w op left right expected
      let l := (left.compile m.left).value
      let r := (right.compile m.right).value
      left.Met w m.left m.operand ∧ right.Met w m.right m.operand ∧
        ∃ code, operatorFor? op m.operand = some code ∧
          c = ⟨operatorNode w op m.operand code (coerce w l.node l.ty m.operand)
              (coerce w r.node r.ty m.operand), if op.isComparison then .bool else m.operand⟩ := by
  unfold compileStrict meeting
  generalize (if op.isComparison then Ty.void else expected) = hint
  -- Each step that may report is quiet by itself, so all of them are passed one after the other.
  refine (unreported_self _).bind ?_
  rintro _ ⟨hleft, rfl⟩
  refine (unreported_self _).bind ?_
  rintro _ ⟨hright, rfl⟩
  dsimp only
  generalize unify w _ _ = common
  cases hvoid : common.isVoid with
  | true => exact poisoned_unreported
  | false =>
    refine (left.retype_quiet hleft).bind ?_
    rintro _ ⟨hl, rfl⟩
    refine (right.retype_quiet hright).bind ?_
    rintro _ ⟨hr, rfl⟩
    generalize (if decide (common = .bool) && !op.isComparison then Ty.i32 else common) = operand
    cases hcode : operatorFor? op operand with
    | none => exact poisoned_unreported
    | some code =>
      refine convertImplicit_quiet.bind ?_
      rintro _ ⟨hlallowed, rfl⟩
      refine convertImplicit_quiet.bind ?_
      rintro _ ⟨hrallowed, rfl⟩
      refine unreported_pure ⟨⟨hl, hlallowed⟩, ⟨hr, hrallowed⟩, code, rfl, ?_⟩
      unfold operatorNode
      split <;> rfl

end

section

variable {σ : Type} (call : Nat → List Value → Run σ (Option Value)) (clock : Nat)

/-- Where nothing is reported, the code of the operand does what the operand does. -/
def Part.Follows (p : Part σ) : Prop :=
  ∀ t, (p.operand.compile t).Unreported fun c => evalNode call clock c.node = p.run t

variable {call clock} {w : PointerWidth} {p left right : Part σ}

/-- The code of an operand that is converted. -/
theorem Part.Follows.coerce (h : p.Follows call clock) {expected target : Ty}
    (hquiet : (p.operand.compile expected).reports = []) :
    let c := (p.operand.compile expected).value
    evalNode call clock (coerce w c.node c.ty target) = p.converted w expected target := by
  intro c
  rw [evalNode_convertValue, h expected hquiet]
  rfl

/-- The truth test of a part runs the part and converts its value. -/
private theorem Part.Follows.condition (h : p.Follows call clock) :
    (p.operand.condition w).Unreported fun n =>
      evalNode call clock n = p.converted w .bool .bool := by
  refine (unreported_self _).bind ?_
  rintro _ ⟨hquiet, rfl⟩
  intro _
  rw [convertExplicit_value]
  exact h.coerce hquiet

/-- A logical operator runs its right operand only if the left one leaves the answer open. -/
private theorem compileLogical_follows (isAnd : Bool) (hl : left.Follows call clock)
    (hr : right.Follows call clock) :
    (compileLogical w isAnd left.operand right.operand).Unreported fun c =>
      evalNode call clock c.node = evaluateLogical w isAnd left right := by
  refine hl.condition.bind fun l hl => ?_
  refine hr.condition.bind fun r hr => ?_
  apply unreported_pure
  unfold evaluateLogical
  rw [← hl, ← hr]
  cases isAnd with
  | true =>
    simp only [if_true, evalNode, Node.i32Const]
    congr
    funext b
    cases b <;> rfl
  | false =>
    simp only [Bool.false_eq_true, if_false, evalNode, Node.i32Const]
    congr
    funext b
    cases b <;> rfl

variable {op : BinaryOp} {expected : Ty} {span : Span}

variable (call clock) in
/-- The code of an operator that evaluates both operands. -/
private theorem evalNode_operate {t : Ty} {code : Code.BinaryOp}
    (hcode : operatorFor? op t = some code) (l r : Node) :
    evalNode call clock (operatorNode w op t code l r) = (do
      let a ← Run.value (evalNode call clock l)
      let b ← Run.value (evalNode call clock r)
      Run.ofExcept (operate op t a b)) := by
  unfold operatorNode
  simp only [operate, hcode, Run.ofExcept_bind]
  split
  · simp only [evalNode]
    rfl
  · rw [evalNode_narrow]
    simp only [evalNode, bind_assoc, pure_bind]

/-- A strict operator runs its left operand and then its right one. -/
private theorem compileStrict_follows (hl : left.Follows call clock)
    (hr : right.Follows call clock) :
    (compileStrict w op left.operand right.operand expected span).Unreported fun c =>
      evalNode call clock c.node = evaluateStrict w op left right expected := by
  intro hquiet
  obtain ⟨hleft, hright, code, hcode, hc⟩ := compileStrict_quiet hquiet
  unfold evaluateStrict
  dsimp only at hc ⊢
  rw [hc, evalNode_operate call clock hcode, hl.coerce hleft.quiet, hr.coerce hright.quiet]

variable (w op expected span) in
/-- A binary operator between operands whose code does what they do. -/
private theorem compileBinary_follows (hl : left.Follows call clock)
    (hr : right.Follows call clock) :
    (compileBinary w op left.operand right.operand expected span).Unreported fun c =>
      evalNode call clock c.node = evaluateBinary w op left right expected := by
  cases op with
  | and => exact compileLogical_follows true hl hr
  | or => exact compileLogical_follows false hl hr
  | _ => exact compileStrict_follows hl hr

variable (w op expected span) in
/-- The type of what a binary operator yields. -/
private theorem compileBinary_ty (left right : Operand) :
    (compileBinary w op left right expected span).Unreported fun c =>
      c.ty = operationType w op left right expected := by
  have hstrict : op.isLogical = false →
      (compileStrict w op left right expected span).Unreported fun c =>
        c.ty = operationType w op left right expected := by
    intro hlogical hquiet
    obtain ⟨-, -, code, -, hc⟩ := compileStrict_quiet hquiet
    rw [hc, operationType, hlogical, Bool.or_false]
  cases op with
  | and | or => exact fun _ => rfl
  | _ => exact hstrict rfl

/-- The code of an operator on one operand, brought into the range of a type. -/
private theorem evalNode_narrow_onPresent {n : Node} {run : Run σ (Option Value)}
    {f : Value → Except Trap Value}
    (h : evalNode call clock n = run >>= fun v => .ofExcept (onPresent f v)) (t : Ty) :
    evalNode call clock (normalize n t) = (do
      let v ← Run.value run
      Run.ofExcept (do
        let r ← f v
        narrow t (some r))) := by
  rw [evalNode_narrow, h, Run.value_eq]
  simp only [onPresent, Run.ofExcept_bind, Run.ofExcept_pure, bind_assoc, pure_bind]

/-- The code of a sign in front of an integer subtracts from zero. -/
private theorem evalNode_negate {t : Ty} (hfloat : t.isFloat = false) (hinteger : t.isInteger)
    (n : Node) :
    let zero : Node := match Value.zero? (t.slot w) with
      | some zero => .const zero
      | none => .nop
    evalNode call clock (normalize (.binary .sub (t.slot w) zero n) t) = (do
      let v ← Run.value (evalNode call clock n)
      Run.ofExcept (negate w t v)) := by
  obtain ⟨zero, hzero⟩ : ∃ zero, Value.zero? (t.slot w) = some zero := by
    cases t <;> first | exact absurd hinteger (by decide) | (cases w <;> exact ⟨_, rfl⟩)
  simp only [hzero, negate, hfloat, Bool.false_eq_true, if_false]
  exact evalNode_narrow_onPresent (evalNode_const_binary call clock .sub _ n zero) t

/-- The code of a complement flips all bits, in the range of the type. -/
private theorem evalNode_complement (t : Ty) (n : Node) :
    let ones : Node := if t.slot w = .i64 then .i64Const (-1) else .i32Const (-1)
    evalNode call clock (normalize (.binary .xor (t.slot w) n ones) t) = (do
      let v ← Run.value (evalNode call clock n)
      Run.ofExcept (complement w t v)) := by
  dsimp only
  unfold complement
  split
  · exact evalNode_narrow_onPresent (evalNode_binary_const call clock .xor _ n _) t
  · exact evalNode_narrow_onPresent (evalNode_binary_const call clock .xor _ n _) t

/-- A unary operator on an operand whose code does what it does. -/
private theorem compileUnary_follows (op : UnaryOp) (literal? : Option Literal)
    (h : p.Follows call clock) :
    (compileUnary w op p.operand literal? expected span).Unreported fun c =>
      evalNode call clock c.node = evaluateUnary w op p literal? expected := by
  cases op with
  | plus => exact h expected
  | not =>
    refine h.condition.bind fun n hn => unreported_pure ?_
    rw [evalNode_unary_eq, hn]
    rfl
  | bitNot =>
    refine (unreported_self _).bind ?_
    rintro _ ⟨hquiet, rfl⟩
    dsimp only
    split
    · apply unreported_pure
      unfold evaluateUnary
      rw [← h expected hquiet]
      exact evalNode_complement _ _
    · exact poisoned_unreported
  | minus =>
    have hliteral (literal : Literal) :
        evalNode call clock (compileLiteral w literal expected).node =
          pure (some (literalValue w literal expected)) := by
      rw [compileLiteral_node]
      rfl
    have hsign : (compileUnary w .minus p.operand none expected span).Unreported fun c =>
        evalNode call clock c.node = evaluateUnary w .minus p none expected := by
      refine (unreported_self _).bind ?_
      rintro _ ⟨hquiet, rfl⟩
      unfold evaluateUnary
      rw [← h expected hquiet]
      dsimp only
      generalize (p.operand.compile expected).value.node = n
      generalize (p.operand.compile expected).value.ty.resolve w = t
      cases hfloat : t.isFloat with
      | true =>
        apply unreported_pure
        simp only [negate, hfloat, if_true, evalNode, Run.ofExcept_bind, Run.ofExcept_pure]
      | false =>
        cases hinteger : t.isInteger with
        | true => exact unreported_pure (evalNode_negate hfloat hinteger n)
        | false => exact poisoned_unreported
    -- A minus sign in front of a number belongs to the literal.
    match literal? with
    | some (.int n) => exact unreported_pure (hliteral (.int (-n)))
    | some (.float x) => exact unreported_pure (hliteral (.float x.neg))
    | some (.boolean b) => exact hsign
    | none => exact hsign

variable (w) in
/-- A variable that is read. -/
private theorem Part.variable_follows (v : Variable) (span : Span) :
    (Part.variable w v span : Part σ).Follows call clock := by
  intro t
  apply unreported_pure
  simp only [readVariable, evalNode, Part.variable]

/-- An assignment has a variable, and the code of the new value does what the assignment does before
    it writes, or a problem is reported. -/
private theorem compileUpdate_follows {ctx : Context} (op : AssignOp) (target : Ident)
    (hp : p.Follows call clock) :
    (compileUpdate ctx op target p.operand span).Unreported fun update =>
      ∃ v n, ctx.bindings.find? target.name = some v ∧ update = some (v, n) ∧
        evalNode call clock n = evaluateUpdate ctx.width op v target p := by
  unfold compileUpdate
  cases hfind : ctx.bindings.find? target.name with
  | none => exact unreported_report_bind
  | some v =>
    dsimp only
    split
    -- An assignment to a constant is reported, and there is nothing to show then.
    · exact unreported_report_bind
    -- A plain assignment stores its value, a compound one the result of its operator.
    unfold evaluateUpdate
    cases hop : op.operator? with
    | none =>
      refine (unreported_self _).bind ?_
      rintro _ ⟨hquiet, rfl⟩
      refine convertImplicit_quiet.bind ?_
      rintro _ ⟨-, rfl⟩
      exact unreported_pure ⟨v, _, rfl, rfl, hp.coerce hquiet⟩
    | some op =>
      have hrun := compileBinary_follows ctx.width op v.ty span
        (Part.variable_follows ctx.width v target.span) hp
      have hty := compileBinary_ty ctx.width op v.ty span
        (Part.variable ctx.width v target.span : Part σ).operand p.operand
      refine (unreported_self _).bind ?_
      rintro _ ⟨hquiet, rfl⟩
      refine convertImplicit_quiet.bind ?_
      rintro _ ⟨-, rfl⟩
      refine unreported_pure ⟨v, _, rfl, rfl, ?_⟩
      rw [evalNode_convertValue]
      dsimp only
      rw [← hrun hquiet, ← hty hquiet]
      rfl

end

/-! ## Expressions -/

section

variable {σ : Type} (call : Nat → List Value → Run σ (Option Value)) (clock : Nat) (ctx : Context)

mutual

/-- An expression compiles to code that does what the expression does, or a problem is reported. -/
theorem compile_follows : (e : Expr) → (expected : Ty) →
    (compile ctx e expected).Unreported fun c =>
      evalNode call clock c.node = evaluate call ctx e expected
  | .literal _ value, expected => by
    simp only [compile, evaluate]
    apply unreported_pure
    rw [compileLiteral_node]
    simp only [evalNode]
  | .paren _ inner, expected => by
    simp only [compile, evaluate]
    exact compile_follows inner expected
  | .name span name, expected => by
    simp only [compile, evaluate]
    cases ctx.bindings.find? name with
    | some v => exact Part.variable_follows ctx.width v span expected
    | none => exact poisoned_unreported
  | .unary span op operand, expected => by
    simp only [compile, evaluate]
    exact compileUnary_follows (p := .ofExpr call ctx operand) op _
      fun t => compile_follows operand t
  | .binary span op left right, expected => by
    simp only [compile, evaluate]
    have hleft : (Part.ofExpr call ctx left).Follows call clock :=
      fun t => compile_follows left t
    have hright : (Part.ofExpr call ctx right).Follows call clock :=
      fun t => compile_follows right t
    have hbinary := compileBinary_follows ctx.width op expected span hleft hright
    exact hbinary
  -- The value is computed before the variable is written, and the node has it once more as its
  -- value.
  | .assign span op target value, expected => by
    simp only [compile, evaluate]
    refine (compileUpdate_follows (p := .ofExpr call ctx value) op target
      fun t => compile_follows value t).bind ?_
    rintro _ ⟨v, n, hv, rfl, hn⟩
    apply unreported_pure
    simp only [hv, evalNode, hn]
    rfl
  | .call span callee args, expected => by
    simp only [compile, evaluate]
    cases ctx.functions.find? callee.name with
    | none => exact poisoned_unreported
    | some s =>
      dsimp only
      split
      · exact poisoned_unreported
      · refine (compileArgs_follow args s.params).bind fun ns hns => unreported_pure ?_
        simp only [evalNode, hns]
  | .cast _ operand t, expected => by
    simp only [compile, evaluate]
    refine (unreported_self _).bind ?_
    rintro _ ⟨hquiet, rfl⟩
    refine (unreported_self _).bind ?_
    rintro _ ⟨-, rfl⟩
    apply unreported_pure
    rw [convertExplicit_value]
    exact Part.Follows.coerce (p := .ofExpr call ctx operand)
      (fun t => compile_follows operand t) hquiet
termination_by structural e => e

/-- Arguments compile to code that does what they do, or a problem is reported. -/
theorem compileArgs_follow : (args : List Expr) → (params : List Ty) →
    (compileArgs ctx args params).Unreported fun ns =>
      evalArgs call clock ns = evaluateArgs call ctx args params
  | [], _ => by
    simp only [compileArgs, evaluateArgs]
    exact unreported_pure (by simp only [evalArgs])
  | _ :: _, [] => by
    simp only [compileArgs, evaluateArgs]
    exact unreported_pure (by simp only [evalArgs])
  | arg :: args, t :: ts => by
    simp only [compileArgs, evaluateArgs]
    refine (unreported_self _).bind ?_
    rintro _ ⟨hquiet, rfl⟩
    refine convertImplicit_quiet.bind ?_
    rintro _ ⟨-, rfl⟩
    refine (compileArgs_follow args ts).bind fun ns hns => unreported_pure ?_
    have harg : evalNode call clock (coerce ctx.width (compile ctx arg t).value.node
        (compile ctx arg t).value.ty t) = Part.converted ctx.width (.ofExpr call ctx arg) t t :=
      Part.Follows.coerce (p := .ofExpr call ctx arg) (fun t => compile_follows arg t) hquiet
    simp only [evalArgs, harg, hns]
    rfl
termination_by structural args => args

end

/-- Code of an expression whose value is not used does what the expression does, and its value is
    dropped. -/
private theorem compileDropped_follows (e : Expr) :
    (compileDropped ctx e).Unreported fun n =>
      (evalNode call clock n).effect = (evaluate call ctx e .void).effect := by
  refine (compile_follows call clock ctx e .void).bind fun c hc => unreported_pure ?_
  split
  · rw [hc]
  · simp only [Run.effect, evalNode, hc, bind_assoc, pure_bind]

/-- An expression for its effects runs like one whose value is then forgotten. -/
private theorem compileDiscarded_follows : (e : Expr) →
    (compileDiscarded ctx e).Unreported fun n =>
      (evalNode call clock n).effect = (evaluate call ctx e .void).effect
  | .paren _ inner => by
    simp only [compileDiscarded, evaluate]
    exact compileDiscarded_follows inner
  | .assign span op target value => by
    simp only [compileDiscarded, evaluate]
    refine (compileUpdate_follows (p := .ofExpr call ctx value) op target
      fun t => compile_follows call clock ctx value t).bind ?_
    rintro _ ⟨v, n, hv, rfl, hn⟩
    apply unreported_pure
    simp only [Run.effect, hv, evalNode, hn, bind_assoc, pure_bind]
    rfl
  | .literal .. | .name .. | .unary .. | .binary .. | .call .. | .cast .. => by
    simp only [compileDiscarded]
    exact compileDropped_follows call clock ctx _

/-- Compiled code evaluates its source: as a value, as a condition and as an expression whose value
    is not used, unless a problem is reported. -/
theorem compile_evaluates (e : Expr) :
    (∀ expected, (compile ctx e expected).reports = [] →
      evalNode call clock (compile ctx e expected).value.node = evaluate call ctx e expected) ∧
    ((compileCondition ctx e).reports = [] →
      evalNode call clock (compileCondition ctx e).value =
        Part.converted ctx.width (.ofExpr call ctx e) .bool .bool) ∧
    ((compileDiscarded ctx e).reports = [] →
      (evalNode call clock (compileDiscarded ctx e).value).effect =
        (evaluate call ctx e .void).effect) := by
  have hfollows : (Part.ofExpr call ctx e).Follows call clock :=
    fun t => compile_follows call clock ctx e t
  exact ⟨hfollows, hfollows.condition, compileDiscarded_follows call clock ctx e⟩

end

/-- Two variables and two functions. -/
def busy : Context where
  width := .w32
  functions := ⟨[("f", ⟨0, [.i32, .i64], .u8⟩), ("g", ⟨1, [.u8], .i32⟩)]⟩
  bindings := [[("x", ⟨0, .i16, false⟩), ("y", ⟨1, .u8, false⟩)]]

/-- The expression `f(x = 1, x += y) && !(g(y = 7) < x)`. -/
def chores : Expr :=
  .binary .empty .and
    (.call .empty ⟨.empty, "f"⟩
      [.assign .empty .assign ⟨.empty, "x"⟩ (.literal .empty (.int 1)),
        .assign .empty .add ⟨.empty, "x"⟩ (.name .empty "y")])
    (.unary .empty .not (.paren .empty (.binary .empty .lt
      (.call .empty ⟨.empty, "g"⟩
        [.assign .empty .assign ⟨.empty, "y"⟩ (.literal .empty (.int 7))])
      (.name .empty "x"))))

/-- A call that notes the callee, its arguments and the locals at the time, and yields 7. -/
def noteCall (id : Nat) (args : List Value) :
    Run (List (Nat × List Value × List Value)) (Option Value) :=
  fun s => .ok (some (.i32 7)) { s with world := s.world ++ [(id, args, s.locals)] }

/-- The first call is made after two assignments to `x`, and the second one after that to `y`. -/
theorem chores_in_order :
    let before : Machine.State _ := ⟨[.i32 3, .i32 4], none, 0, []⟩
    let after : Machine.State _ := ⟨[.i32 5, .i32 7], none, 0,
      [(0, [.i32 1, .i64 5], [.i32 5, .i32 4]), (1, [.i32 7], [.i32 5, .i32 7])]⟩
    (compile busy chores .void).reports = [] ∧ (compileCondition busy chores).reports = [] ∧
      (compileDiscarded busy chores).reports = [] ∧
      evalNode noteCall 0 (compile busy chores .void).value.node before =
        .ok (some (.i32 1)) after ∧
      evalNode noteCall 0 (compileCondition busy chores).value before =
        .ok (some (.i32 1)) after ∧
      (evalNode noteCall 0 (compileDiscarded busy chores).value).effect before = .ok () after := by
  intro before after
  have hquiet : (compile busy chores .void).reports = [] := rfl
  have hcondition : (compileCondition busy chores).reports = [] := rfl
  have hdiscarded : (compileDiscarded busy chores).reports = [] := rfl
  -- The source is evaluated instead of the code.
  obtain ⟨hvalue, htest, heffect⟩ := compile_evaluates noteCall 0 busy chores
  refine ⟨hquiet, hcondition, hdiscarded, ?_, ?_, ?_⟩
  · rw [hvalue .void hquiet]
    rfl
  · rw [htest hcondition]
    rfl
  · rw [heffect hdiscarded]
    rfl

end Weir.Lowering
