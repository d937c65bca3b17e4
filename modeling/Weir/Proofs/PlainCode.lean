import Weir.Proofs.ExpressionTyping
import Weir.Proofs.LowerStep

/-!
# Plain code

Plain code has no control of its own: it binds no labels, and it neither branches nor returns. All
code that is compiled from expressions is plain, so control only ever changes where a statement is
lowered.

## Key results

- `Node.boundLabels_of_isPlain`: plain code binds no labels
- `compile_isPlain`, `compileCondition_isPlain`, `compileDiscarded_isPlain`: code that is compiled
  from expressions is plain
-/

namespace Weir.Code

mutual

/-- Whether a node binds no labels, and neither branches nor returns. -/
def Node.isPlain : Node → Bool
  | .nop | .unreachable | .const _ | .localGet .. => true
  | .block (some _) _ | .loop .. | .br _ | .brIf .. | .brTable .. | .ret | .retValue _ => false
  | .block none children => allPlain children
  | .ifThen _ c t => c.isPlain && t.isPlain
  | .ifElse _ c t e | .select c t e => c.isPlain && (t.isPlain && e.isPlain)
  | .drop e | .localSet _ e | .localTee _ _ e | .unary _ _ e | .convert _ e => e.isPlain
  | .binary _ _ l r => l.isPlain && r.isPlain
  | .call _ args _ => allPlain args
termination_by structural n => n

/-- Whether all of the nodes are plain. -/
def allPlain : List Node → Bool
  | [] => true
  | n :: ns => n.isPlain && allPlain ns
termination_by structural ns => ns

end

mutual

/-- The labels that the blocks and loops of a tree bind, one for each of them. -/
def Node.boundLabels : Node → List Label
  | .nop | .unreachable | .const _ | .localGet .. | .br _ | .ret => []
  | .block label children => label.toList ++ boundLabelsAll children
  | .loop label body => label :: body.boundLabels
  | .ifThen _ c t => c.boundLabels ++ t.boundLabels
  | .ifElse _ c t e | .select c t e => c.boundLabels ++ (t.boundLabels ++ e.boundLabels)
  | .drop e | .localSet _ e | .localTee _ _ e | .unary _ _ e | .convert _ e | .brIf _ e
  | .brTable _ _ e | .retValue e => e.boundLabels
  | .binary _ _ l r => l.boundLabels ++ r.boundLabels
  | .call _ args _ => boundLabelsAll args
termination_by structural n => n

/-- The labels that the nodes bind. -/
def boundLabelsAll : List Node → List Label
  | [] => []
  | n :: ns => n.boundLabels ++ boundLabelsAll ns
termination_by structural ns => ns

end

/-- The labels of two sequences of nodes are those of the one and those of the other. -/
theorem boundLabelsAll_append (ns ms : List Node) :
    boundLabelsAll (ns ++ ms) = boundLabelsAll ns ++ boundLabelsAll ms := by
  induction ns with
  | nil => rfl
  | cons n ns ih => simp only [List.cons_append, boundLabelsAll, ih, List.append_assoc]

mutual

/-- Plain code binds no labels. -/
theorem Node.boundLabels_of_isPlain : (n : Node) → n.isPlain → n.boundLabels = []
  | .nop, _ | .unreachable, _ | .const _, _ | .localGet .., _ => rfl
  | .block none children, h => boundLabelsAll_of_allPlain children h
  | .ifThen _ c t, h => by
    simp only [Node.isPlain, Bool.and_eq_true] at h
    simp only [Node.boundLabels, Node.boundLabels_of_isPlain c h.1,
      Node.boundLabels_of_isPlain t h.2, List.append_nil]
  | .ifElse _ c t e, h | .select c t e, h => by
    simp only [Node.isPlain, Bool.and_eq_true] at h
    simp only [Node.boundLabels, Node.boundLabels_of_isPlain c h.1,
      Node.boundLabels_of_isPlain t h.2.1, Node.boundLabels_of_isPlain e h.2.2, List.append_nil]
  | .drop e, h | .localSet _ e, h | .localTee _ _ e, h | .unary _ _ e, h | .convert _ e, h =>
    Node.boundLabels_of_isPlain e h
  | .binary _ _ l r, h => by
    simp only [Node.isPlain, Bool.and_eq_true] at h
    simp only [Node.boundLabels, Node.boundLabels_of_isPlain l h.1,
      Node.boundLabels_of_isPlain r h.2, List.append_nil]
  | .call _ args _, h => boundLabelsAll_of_allPlain args h
termination_by structural n => n

private theorem boundLabelsAll_of_allPlain : (ns : List Node) → allPlain ns → boundLabelsAll ns = []
  | [], _ => rfl
  | n :: ns, h => by
    simp only [allPlain, Bool.and_eq_true] at h
    simp only [boundLabelsAll, Node.boundLabels_of_isPlain n h.1,
      boundLabelsAll_of_allPlain ns h.2, List.append_nil]
termination_by structural ns => ns

end

/-- A list of nodes is plain if each of its nodes is. -/
theorem allPlain_iff {ns : List Node} : allPlain ns ↔ ∀ n ∈ ns, n.isPlain := by
  induction ns with
  | nil => simp [allPlain]
  | cons n ns ih => simp [allPlain, ih]

@[simp] theorem Node.isPlain_i32Const (n : Int) : (Node.i32Const n).isPlain := rfl

@[simp] theorem Node.isPlain_i64Const (n : Int) : (Node.i64Const n).isPlain := rfl

end Weir.Code

namespace Weir.Lowering

open Weir.Code (Node Slot allPlain)
open Weir.Source (Expr Literal PointerWidth Span Ty)

variable {w : PointerWidth}

/-! ## Conversions -/

/-- Code whose value is missing is as plain as what it wraps. -/
private theorem absent_isPlain {n : Node} (h : n.isPlain) : (absent n).isPlain := by
  simp [absent, Node.isPlain, allPlain, h]

/-- Bringing a value back into the range of its type adds plain operators only. -/
private theorem normalize_isPlain {n : Node} {t : Ty} (h : n.isPlain) :
    (normalize n t).isPlain := by
  cases t <;> simp [normalize, Node.isPlain, h]

/-- The test for a value that is not zero adds a comparison, or nothing where there is no value. -/
private theorem truthTest_isPlain {n : Node} {s : Slot} (h : n.isPlain) :
    (truthTest n s).isPlain := by
  cases s with
  | none => exact absent_isPlain h
  | i32 | i64 | f32 | f64 => simp [truthTest, Code.Value.zero?, Node.isPlain, h]

/-- The conversion to another slot is one operator at most. -/
private theorem changeSlot_isPlain {n : Node} (source target : Ty) (h : n.isPlain) :
    (changeSlot w n source target).isPlain := by
  unfold changeSlot
  repeat' split
  all_goals exact h

/-- Every conversion of plain code is plain code, whatever the types. -/
private theorem coerce_isPlain {n : Node} {source target : Ty} (h : n.isPlain) :
    (coerce w n source target).isPlain := by
  have hchanged := changeSlot_isPlain (w := w) (source.resolve w) (target.resolve w) h
  unfold coerce coerceResolved
  dsimp only
  repeat' split
  · exact h
  · exact h
  · exact absent_isPlain h
  · exact truthTest_isPlain h
  · exact normalize_isPlain hchanged
  · exact hchanged

/-! ## Operands -/

/-- An operand compiles to plain code for every type that is expected of it. -/
def Operand.Plain (e : Operand) : Prop := ∀ expected, (e.compile expected).value.node.isPlain

variable {e left right : Operand} {expected : Ty} {span : Span}

/-- The truth test of a plain operand is plain. -/
private theorem Operand.Plain.condition (h : e.Plain) : (e.condition w).value.isPlain := by
  unfold Operand.condition
  rw [Reported.value_bind, convertExplicit_value]
  exact coerce_isPlain (h .bool)

/-- A binary operator is plain code of its operands. The logical ones become a choice between two
    plain branches. -/
private theorem compileBinary_isPlain {op : Source.BinaryOp} (hl : left.Plain) (hr : right.Plain) :
    (compileBinary w op left right expected span).value.node.isPlain := by
  -- The strict operators convert both operands to the type of the operation, and normalize its
  -- result.
  have hstrict : (compileStrict w op left right expected span).value.node.isPlain := by
    rcases compileStrict_cases w op left right expected span with
      ⟨problem, heq⟩ | ⟨l, r, operand, code, ⟨tl, rfl⟩, ⟨tr, rfl⟩, -, -, heq⟩
    · rw [heq]
      rfl
    · have hnode : (Node.binary code (operand.slot w)
          (coerce w (left.compile tl).value.node (left.compile tl).value.ty operand)
          (coerce w (right.compile tr).value.node (right.compile tr).value.ty
            operand)).isPlain := by
        simp only [Node.isPlain, Bool.and_eq_true]
        exact ⟨coerce_isPlain (hl tl), coerce_isPlain (hr tr)⟩
      rw [heq]
      dsimp only
      split
      · exact hnode
      · exact normalize_isPlain hnode
  cases op with
  | and | or =>
    simp only [compileBinary, compileLogical, Reported.value_bind, Reported.value_pure, if_true,
      Bool.false_eq_true, if_false, Node.isPlain, Bool.and_eq_true, Node.isPlain_i32Const]
    exact ⟨hl.condition, by simp [hr.condition]⟩
  -- All other operators evaluate both of their operands.
  | _ => exact hstrict

/-- A unary operator is plain code of its operand. -/
private theorem compileUnary_isPlain {op : Source.UnaryOp} {literal? : Option Literal}
    (h : e.Plain) :
    (compileUnary w op e literal? expected span).value.node.isPlain := by
  cases op with
  | plus => exact h expected
  | not => exact h.condition
  | bitNot =>
    simp only [compileUnary, Reported.value_bind]
    split
    · refine normalize_isPlain ?_
      simp only [Node.isPlain, Bool.and_eq_true]
      refine ⟨h expected, ?_⟩
      split <;> rfl
    · rfl
  | minus =>
    -- Only numbers that are bare literals are compiled with their sign.
    have hsign : (compileUnary w .minus e none expected span).value.node.isPlain := by
      simp only [compileUnary, Reported.value_bind]
      split
      · exact h expected
      · split
        · refine normalize_isPlain ?_
          simp only [Node.isPlain, Bool.and_eq_true]
          refine ⟨?_, h expected⟩
          split <;> rfl
        · rfl
    cases literal? with
    | none => exact hsign
    | some literal =>
      cases literal with
      | int value => rfl
      | float value =>
        simp only [compileUnary, compileLiteral, Reported.value_pure]
        split <;> rfl
      | boolean value => exact hsign

/-! ## Expressions -/

variable {ctx : Context}

/-- The value that an assignment stores is plain. -/
private theorem compileUpdate_isPlain {op : Source.AssignOp} {target : Source.Ident}
    {value : Operand} (hvalue : value.Plain) {v : Variable} {n : Node}
    (h : (compileUpdate ctx op target value span).value = some (v, n)) : n.isPlain := by
  obtain ⟨-, c, rfl, hc⟩ := compileUpdate_eq_some h
  refine coerce_isPlain ?_
  -- A compound assignment is a binary operator on the variable, which is plain to read.
  rcases hc with rfl | ⟨op, current, hcurrent, rfl⟩
  · exact hvalue v.ty
  · exact compileBinary_isPlain (fun _ => by rw [hcurrent]; rfl) hvalue

mutual

/-- Compiled code is plain. -/
theorem compile_isPlain (ctx : Context) :
    (e : Expr) → (expected : Ty) → (compile ctx e expected).value.node.isPlain
  | .literal _ value, expected => by
    simp only [compile, compileLiteral, Reported.value_pure]
    repeat' split
    all_goals rfl
  | .paren _ inner, expected => by
    simp only [compile]
    exact compile_isPlain ctx inner expected
  | .name span name, expected => by
    simp only [compile]
    split <;> rfl
  | .unary span op operand, expected => by
    simp only [compile]
    exact compileUnary_isPlain fun t => compile_isPlain ctx operand t
  | .binary span op left right, expected => by
    simp only [compile]
    exact compileBinary_isPlain (fun t => compile_isPlain ctx left t)
      fun t => compile_isPlain ctx right t
  | .assign span op target value, expected => by
    simp only [compile, Reported.value_bind]
    split
    next => rfl
    next v n h =>
      have hn : n.isPlain := compileUpdate_isPlain (fun t => compile_isPlain ctx value t) h
      exact hn
  | .call span callee args, expected => by
    simp only [compile]
    split
    next => rfl
    next s _ =>
      split
      next => rfl
      next => exact compileArgs_allPlain ctx args s.params
  | .cast _ operand t, expected => by
    simp only [compile, Reported.value_bind, convertExplicit_value]
    exact coerce_isPlain (compile_isPlain ctx operand t)
termination_by structural e => e

private theorem compileArgs_allPlain (ctx : Context) :
    (args : List Expr) → (params : List Ty) → allPlain (compileArgs ctx args params).value
  | [], _ => by simp only [compileArgs, Reported.value_pure, allPlain]
  | _ :: _, [] => by simp only [compileArgs, Reported.value_pure, allPlain]
  | arg :: args, t :: ts => by
    simp only [compileArgs, Reported.value_bind, Reported.value_pure, convertImplicit_value,
      allPlain, Bool.and_eq_true]
    exact ⟨coerce_isPlain (compile_isPlain ctx arg t), compileArgs_allPlain ctx args ts⟩
termination_by structural args => args

end

/-- The test of a condition is plain code. -/
theorem compileCondition_isPlain (ctx : Context) (e : Expr) :
    (compileCondition ctx e).value.isPlain :=
  Operand.Plain.condition fun t => compile_isPlain ctx e t

/-- An expression of no interest is dropped unless it has no value, and is plain either way. -/
theorem compileDropped_isPlain (ctx : Context) (e : Expr) (expected : Ty) :
    let c := (compile ctx e expected).value
    (if c.ty.isVoid then c.node else .drop c.node).isPlain := by
  dsimp only
  split <;> exact compile_isPlain ctx e expected

/-- The code of an expression for its effects alone is plain. -/
theorem compileDiscarded_isPlain (ctx : Context) :
    (e : Expr) → (compileDiscarded ctx e).value.isPlain
  | .paren _ inner => by
    simp only [compileDiscarded]
    exact compileDiscarded_isPlain ctx inner
  | .assign span op target value => by
    simp only [compileDiscarded, Reported.value_bind]
    split
    next => rfl
    next v n h =>
      have hn : n.isPlain := compileUpdate_isPlain (fun t => compile_isPlain ctx value t) h
      exact hn
  | .literal .. | .name .. | .unary .. | .binary .. | .call .. | .cast .. => by
    simp only [compileDiscarded]
    exact compileDropped_isPlain ctx _ _

/-! ## Parts of statements -/

theorem compileReturned_isPlain (ctx : Context) (e : Expr) (result : Ty) :
    (compileReturned ctx e result).value.isPlain := by
  simp only [compileReturned, Reported.value_bind, convertImplicit_value]
  exact coerce_isPlain (compile_isPlain ctx e result)

/-- The value that a switch selects by is plain code. -/
theorem compileDiscriminant_isPlain (ctx : Context) (e : Expr) :
    (compileDiscriminant ctx e).value.1.isPlain := by
  simp only [compileDiscriminant, Reported.value_bind, convertExplicit_value, Reported.value_pure]
  exact coerce_isPlain (compile_isPlain ctx e .void)

/-- The value of a clause is plain code. -/
private theorem compileGuard_isPlain (ctx : Context) (compared : Ty) (e : Expr) :
    (compileGuard ctx compared e).value.isPlain := by
  simp only [compileGuard, Reported.value_bind, convertExplicit_value]
  exact coerce_isPlain (compile_isPlain ctx e compared)

/-- The initial value of a variable, if it has one, is plain code. -/
private theorem compileInitial_isPlain (ctx : Context) (d : Source.Declarator)
    (declared : Option Ty) :
    ∀ n ∈ (compileInitial ctx d declared).value.1, n.isPlain := by
  intro n hn
  obtain ⟨e, expected, hconverted | ⟨hcompiled, -⟩⟩ := compileInitial_eq_some hn
  · rw [hconverted]
    exact coerce_isPlain (compile_isPlain ctx e expected)
  · rw [hcompiled]
    exact compile_isPlain ctx e expected

/-- The nodes that set a new variable are plain. -/
private theorem lowerDeclarator_isPlain {fc : FunctionContext} {isConst : Bool}
    {d : Source.Declarator}
    {st st' : State} {ns : List Node} (h : lowerDeclarator fc isConst d st = .ok ns st') :
    ∀ n ∈ ns, n.isPlain := by
  obtain ⟨rfl, -⟩ := lowerDeclarator_eq_ok h
  have hinitial := compileInitial_isPlain (fc.context st) d (declaredType? d)
  intro n hn
  -- An initial value is stored, a variable without one gets the zero of its slot, and one without a
  -- slot gets nothing.
  unfold initialNodes at hn
  split at hn
  next node hnode =>
    obtain rfl := List.mem_singleton.1 hn
    exact hinitial node hnode
  next =>
    obtain rfl := List.mem_singleton.1 hn
    rfl
  next => cases hn

/-- The nodes that set the variables of a declaration are plain. -/
theorem lowerDeclarators_isPlain {fc : FunctionContext} {isConst : Bool}
    {ds : List Source.Declarator} {st st' : State} {ns : List Node}
    (h : lowerDeclarators fc isConst ds st = .ok ns st') : ∀ n ∈ ns, n.isPlain := by
  induction ds generalizing st ns with
  | nil =>
    obtain ⟨rfl, -⟩ := lowerDeclarators_nil h
    simp
  | cons d ds ih =>
    obtain ⟨first, st₁, rest, hfirst, hrest, rfl⟩ := lowerDeclarators_cons h
    exact List.forall_mem_append.2 ⟨lowerDeclarator_isPlain hfirst, ih hrest⟩

/-- A sequence of plain nodes is plain, whether it is empty, a single node or a block. -/
theorem sequence_isPlain {ns : List Node} (h : ∀ n ∈ ns, n.isPlain) : (sequence ns).isPlain := by
  unfold sequence
  split
  · rfl
  · exact h _ (List.mem_singleton.2 rfl)
  · exact Code.allPlain_iff.2 h

/-- What is compiled from an expression that may be missing is plain. -/
theorem isPlain_of_mapM {compiled : Expr → Reported Node} (h : ∀ e, (compiled e).value.isPlain)
    (o : Option Expr) : ∀ n ∈ (o.mapM compiled).value, n.isPlain := by
  cases o with
  | none => exact fun n hn => by cases hn
  | some e =>
    intro n hn
    cases hn
    exact h e

/-- The guards of clauses are plain. -/
theorem lowerClauses_isPlain {fc : FunctionContext} {scope : LabelScope} {compared : Ty}
    {clauses : List Source.Clause} {ordinal : Nat} {hasDefault : Bool} {st st' : State}
    {cases : List Case}
    (h : lowerClauses fc scope compared ordinal hasDefault clauses st = .ok cases st') :
    ∀ c ∈ cases, ∀ g ∈ c.guard, g.isPlain := by
  -- The induction is on the clauses, and each one adds at most the code of its value.
  induction clauses generalizing ordinal hasDefault st cases with
  | nil =>
    obtain ⟨rfl, -⟩ := lowerClauses_nil h
    simp
  | cons clause clauses ih =>
    obtain ⟨test, body, span⟩ := clause
    obtain ⟨r, st₁, nodes, st₂, rest, htest, hbody, hrest, rfl⟩ := lowerClauses_cons h
    refine List.forall_mem_cons.2 ⟨fun g hg => ?_, ih hrest⟩
    rcases lowerTest_eq_ok htest with ⟨e, -, rfl, -⟩ | ⟨-, -, rfl, -⟩ | ⟨-, -, rfl, -⟩
    · cases hg
      exact compileGuard_isPlain _ compared e
    · cases hg
    · cases hg

/-- The search for the first guard that matches is plain. -/
theorem selectNode_isPlain {condition : Nat} {slot : Slot} {guards : List Node}
    (hguards : ∀ g ∈ guards, g.isPlain) {position : Nat} {n : Node}
    (h : selectNode condition slot position guards = .ok n) : n.isPlain := by
  induction guards generalizing position n with
  | nil =>
    cases h
    rfl
  | cons g gs ih =>
    obtain ⟨hg, hgs⟩ := List.forall_mem_cons.1 hguards
    obtain ⟨rest, hrest, -, rfl⟩ := selectNode_cons h
    simp [Node.isPlain, hg, ih hgs hrest]

end Weir.Lowering
