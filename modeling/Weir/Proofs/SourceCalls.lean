import Mathlib.Data.List.Forall2
import Weir.Proofs.Accesses

/-!
# Calls in lowered code

The calls in lowered code are those of its source. Both are listed in the order of the code: the
test of a loop before its body, and all guards of a switch before the clauses. Converting a value or
testing it calls nothing, and what is compiled again replaces what it was compiled to before, so
each call in the code is compiled from a source call of its own. Source calls may be left out: code
that stands for a problem calls nothing.

## Key results

- `Emits`: calls in code compiled from source calls, in order
- `compile_emits`, `compileDiscarded_emits`: the calls in compiled expressions
- `lower_emits`: the calls in lowered statements
-/

namespace Weir.Code

/-- Whether a node is a call. -/
@[simp] def Node.isCall : Node → Bool
  | .call .. => true
  | _ => false

/-- The calls in a tree, each before those in its arguments. -/
def Node.calls (n : Node) : List Node := n.subnodes.filter Node.isCall

/-- The calls in trees. -/
def callsAll (ns : List Node) : List Node := (subnodesAll ns).filter Node.isCall

@[simp] theorem callsAll_nil : callsAll [] = [] := rfl

@[simp] theorem callsAll_cons (n : Node) (ns : List Node) :
    callsAll (n :: ns) = n.calls ++ callsAll ns := by
  simp [callsAll, Node.calls]

@[simp] theorem callsAll_append (ns ms : List Node) :
    callsAll (ns ++ ms) = callsAll ns ++ callsAll ms := by
  simp [callsAll]

namespace Node

variable {label : Option Label} {target : Label} {targets : List Label} {op : UnaryOp}
  {op' : BinaryOp} {conversion : Conversion} {slot : Slot} {callee index : Nat} {v : Value}
  {n c t e l r : Node} {ns : List Node}

@[simp] theorem calls_nop : nop.calls = [] := rfl

@[simp] theorem calls_unreachable : unreachable.calls = [] := rfl

@[simp] theorem calls_const : (const v).calls = [] := rfl

@[simp] theorem calls_i32Const {k : Int} : (i32Const k).calls = [] := rfl

@[simp] theorem calls_i64Const {k : Int} : (i64Const k).calls = [] := rfl

@[simp] theorem calls_localGet : (localGet index slot).calls = [] := rfl

@[simp] theorem calls_br : (br target).calls = [] := rfl

@[simp] theorem calls_ret : ret.calls = [] := rfl

@[simp] theorem calls_block : (block label ns).calls = callsAll ns := rfl

@[simp] theorem calls_loop : (loop target n).calls = n.calls := rfl

@[simp] theorem calls_retValue : (retValue n).calls = n.calls := rfl

@[simp] theorem calls_drop : (drop n).calls = n.calls := rfl

@[simp] theorem calls_localSet : (localSet index n).calls = n.calls := rfl

@[simp] theorem calls_localTee : (localTee index slot n).calls = n.calls := rfl

@[simp] theorem calls_unary : (unary op slot n).calls = n.calls := rfl

@[simp] theorem calls_convert : (convert conversion n).calls = n.calls := rfl

@[simp] theorem calls_brIf : (brIf target n).calls = n.calls := rfl

@[simp] theorem calls_brTable : (brTable targets target n).calls = n.calls := rfl

@[simp] theorem calls_binary : (binary op' slot l r).calls = l.calls ++ r.calls := by
  simp [calls]

@[simp] theorem calls_ifThen : (ifThen slot c t).calls = c.calls ++ t.calls := by
  simp [calls]

@[simp] theorem calls_ifElse : (ifElse slot c t e).calls = c.calls ++ (t.calls ++ e.calls) := by
  simp [calls]

@[simp] theorem calls_select : (select c t e).calls = c.calls ++ (t.calls ++ e.calls) := by
  simp [calls]

@[simp] theorem calls_call : (call callee ns slot).calls = call callee ns slot :: callsAll ns := rfl

end Node

end Weir.Code

namespace Weir.Source

/-- A call in a source program: what is called, and with what. -/
structure Call where
  callee : Ident
  args : List Expr

mutual

/-- The calls in an expression, each before those in its arguments. -/
def Expr.calls : Expr → List Call
  | .literal .. | .name .. => []
  | .unary _ _ e | .assign _ _ _ e | .cast _ e _ | .paren _ e => e.calls
  | .binary _ _ l r => l.calls ++ r.calls
  | .call _ callee args => ⟨callee, args⟩ :: Expr.callsAll args
termination_by structural e => e

/-- The calls in expressions. -/
def Expr.callsAll : List Expr → List Call
  | [] => []
  | e :: es => e.calls ++ Expr.callsAll es
termination_by structural es => es

end

/-- The calls in an expression that may be missing. -/
def Expr.callsOption (e : Option Expr) : List Call := e.toList.flatMap Expr.calls

/-- The calls in the initial values of variables. -/
def Declarator.callsAll (ds : List Declarator) : List Call :=
  ds.flatMap fun d => Expr.callsOption d.init

/-- The calls in the tests of clauses. -/
def Clause.testCalls : List Clause → List Call
  | [] => []
  | .mk test _ _ :: clauses => Expr.callsOption test ++ Clause.testCalls clauses

mutual

/-- The calls in a statement, in the order in which code comes to them first: the test of a loop
    before its body, the update after it, and the tests of a switch before its clauses. -/
def Stmt.calls : Stmt → List Call
  | .exprStmt _ e => e.calls
  | .varDecl _ _ ds => Declarator.callsAll ds
  | .returnStmt _ value => Expr.callsOption value
  | .ifStmt _ c t e => c.calls ++ (t.calls ++ Stmt.callsOption e)
  | .forStmt _ init c u body => Stmt.callsOption init ++ (Expr.callsOption c ++
      (Stmt.callsOption body ++ Expr.callsOption u))
  | .whileStmt _ c body => c.calls ++ Stmt.callsOption body
  | .doWhile _ body c => body.calls ++ c.calls
  | .block _ ss => Stmt.callsAll ss
  | .switchStmt _ d clauses => d.calls ++ (Clause.testCalls clauses ++ Clause.bodyCalls clauses)
  | .breakStmt _ | .continueStmt _ | .empty _ => []
termination_by structural s => s

/-- The calls in a statement that may be missing. -/
def Stmt.callsOption : Option Stmt → List Call
  | none => []
  | some s => s.calls
termination_by structural s => s

/-- The calls in statements. -/
def Stmt.callsAll : List Stmt → List Call
  | [] => []
  | s :: ss => s.calls ++ Stmt.callsAll ss
termination_by structural ss => ss

/-- The calls in the statements of clauses. -/
def Clause.bodyCalls : List Clause → List Call
  | [] => []
  | .mk _ body _ :: clauses => Stmt.callsAll body ++ Clause.bodyCalls clauses
termination_by structural clauses => clauses

end

end Weir.Source

namespace Weir.Lowering

open Weir.Code (Node Slot callsAll)
open Weir.Source (Call Clause Declarator Expr Literal PointerWidth Span Stmt Ty)

/-- The node is compiled from a source call: it calls what the name stands for in the table, with
    the arguments compiled for the parameters. -/
def CompiledCall (w : PointerWidth) (functions : FunctionTable) (n : Node) (c : Call) : Prop :=
  ∃ bindings s, functions.find? c.callee.name = some s ∧ s.params.length = c.args.length ∧
    n = .call s.id (compileArgs ⟨w, functions, bindings⟩ c.args s.params).value (s.result.slot w)

/-- The calls in code are compiled from source calls one by one, in their order. Source calls may be
    left out. -/
abbrev Emits (w : PointerWidth) (functions : FunctionTable) : List Node → List Call → Prop :=
  List.SublistForall₂ (CompiledCall w functions)

section

variable {w : PointerWidth} {functions : FunctionTable} {ns ms : List Node} {cs ds : List Call}

/-- What code calls one part after the other, its source calls one part after the other. -/
theorem Emits.append (h : Emits w functions ns cs) (h' : Emits w functions ms ds) :
    Emits w functions (ns ++ ms) (cs ++ ds) := by
  induction h with
  | nil =>
    -- Source calls that are left out in front stay left out.
    obtain ⟨l, hl, hsub⟩ := List.sublistForall₂_iff.1 h'
    exact List.sublistForall₂_iff.2 ⟨l, hl, hsub.trans (List.sublist_append_right _ _)⟩
  | cons hcall _ ih => exact .cons hcall ih
  | cons_right _ ih => exact .cons_right ih

/-- Code without calls may stand for anything. -/
private theorem Emits.of_nil (h : ns = []) : Emits w functions ns cs := h ▸ .nil

end

/-! ## Conversions -/

section

variable {w : PointerWidth} {n : Node}

@[simp] theorem calls_normalize (t : Ty) : (normalize n t).calls = n.calls := by
  cases t <;> simp [normalize]

@[simp] theorem calls_absent : (absent n).calls = n.calls := by
  simp [absent]

@[simp] theorem calls_truthTest (s : Slot) : (truthTest n s).calls = n.calls := by
  cases s <;> simp [truthTest, Code.Value.zero?]

@[simp] theorem calls_changeSlot (source target : Ty) :
    (changeSlot w n source target).calls = n.calls := by
  unfold changeSlot
  repeat' split
  all_goals rfl

/-- A conversion calls nothing. -/
@[simp] theorem calls_coerce (source target : Ty) : (coerce w n source target).calls = n.calls := by
  unfold coerce coerceResolved
  dsimp only
  split
  · rfl
  split
  · rfl
  split
  · exact calls_absent
  split
  · exact calls_truthTest _
  split
  · rw [calls_normalize, calls_changeSlot]
  · exact calls_changeSlot _ _

end

/-! ## Operands -/

/-- Whatever type is expected of an operand, the calls in its code are compiled from the same source
    calls. -/
def Operand.Emits (w : PointerWidth) (functions : FunctionTable) (e : Operand)
    (cs : List Call) : Prop :=
  ∀ expected, Lowering.Emits w functions (e.compile expected).value.node.calls cs

section

variable {w : PointerWidth} {functions : FunctionTable} {e left right : Operand}
  {cs ls rs : List Call} {expected : Ty} {span : Span}

/-- A condition converts what its operand is compiled to, and a conversion calls nothing. -/
private theorem Operand.Emits.condition (h : e.Emits w functions cs) :
    Lowering.Emits w functions (e.condition w).value.calls cs := by
  rw [Operand.condition, Reported.value_bind, convertExplicit_value, calls_coerce]
  exact h .bool

/-- The code of an operator on two values has calls of the left operand first. -/
private theorem compileStrict_emits {op : Source.BinaryOp} (hl : left.Emits w functions ls)
    (hr : right.Emits w functions rs) :
    Emits w functions (compileStrict w op left right expected span).value.node.calls
      (ls ++ rs) := by
  rcases compileStrict_cases w op left right expected span with
    ⟨problem, heq⟩ | ⟨l, r, operand, code, ⟨tl, rfl⟩, ⟨tr, rfl⟩, -, -, heq⟩
  · -- The operands of an operator that is not defined are cut off.
    rw [heq]
    exact .nil
  · have hboth := (hl tl).append (hr tr)
    rw [heq]
    dsimp only
    split
    · simpa using hboth
    · simpa using hboth

/-- The code of a binary operator has calls of both operands, those of the left one first. -/
private theorem compileBinary_emits {op : Source.BinaryOp} (hl : left.Emits w functions ls)
    (hr : right.Emits w functions rs) :
    Emits w functions (compileBinary w op left right expected span).value.node.calls
      (ls ++ rs) := by
  -- An operator that may leave its right operand out still has the code of both operands.
  have hboth := hl.condition.append hr.condition
  cases op with
  | and | or => simpa [compileBinary, compileLogical] using hboth
  -- All other operators evaluate both of their operands.
  | _ => exact compileStrict_emits hl hr

/-- The code of a unary operator has calls of its operand. -/
private theorem compileUnary_emits {op : Source.UnaryOp} {literal? : Option Literal}
    (h : e.Emits w functions cs) :
    Emits w functions (compileUnary w op e literal? expected span).value.node.calls cs := by
  -- A minus sign in front of an operand that is not a literal.
  have hsign : Emits w functions (compileUnary w .minus e none expected span).value.node.calls
      cs := by
    simp only [compileUnary, Reported.value_bind]
    split
    · exact h expected
    · split
      · -- The zero in front is a constant.
        rw [Reported.value_pure, calls_normalize, Node.calls_binary, ← List.nil_append cs]
        refine (Emits.of_nil ?_).append (h expected)
        split <;> rfl
      · exact .nil
  cases op with
  | plus => exact h expected
  | not => exact h.condition
  | bitNot =>
    simp only [compileUnary, Reported.value_bind]
    split
    · rw [Reported.value_pure, calls_normalize, Node.calls_binary, ← List.append_nil cs]
      refine (h expected).append (Emits.of_nil ?_)
      split <;> rfl
    · exact .nil
  | minus =>
    rcases literal? with _ | value | value | value
    · exact hsign
    · exact .nil
    · refine Emits.of_nil ?_
      simp only [compileUnary, compileLiteral, Reported.value_pure]
      split <;> rfl
    · exact hsign

end

/-! ## Expressions -/

section

variable {ctx : Context} {span : Span}

/-- The code of an assignment has calls of the assigned value. -/
private theorem compileUpdate_emits {op : Source.AssignOp} {target : Source.Ident} {value : Operand}
    {cs : List Call} (hvalue : value.Emits ctx.width ctx.functions cs) {v : Variable} {n : Node}
    (h : (compileUpdate ctx op target value span).value = some (v, n)) :
    Emits ctx.width ctx.functions n.calls cs := by
  obtain ⟨-, c, rfl, hc⟩ := compileUpdate_eq_some h
  rw [calls_coerce]
  rcases hc with rfl | ⟨op, current, hcurrent, rfl⟩
  · exact hvalue v.ty
  · -- The variable is the left operand, and reading it calls nothing.
    have hread : current.Emits ctx.width ctx.functions [] := fun t => by
      rw [hcurrent]
      exact .nil
    exact compileBinary_emits hread hvalue

/-- Arguments are compiled as long as there are parameters for them. -/
theorem length_compileArgs (ctx : Context) (args : List Expr) (ts : List Ty) :
    (compileArgs ctx args ts).value.length = min args.length ts.length := by
  induction args generalizing ts with
  | nil => simp [compileArgs]
  | cons arg args ih =>
    cases ts with
    | nil => simp [compileArgs]
    | cons t ts => simp [compileArgs, ih]

mutual

/-- The calls in the code of an expression are compiled from the calls in the expression. -/
theorem compile_emits (ctx : Context) : (e : Expr) → (expected : Ty) →
    Emits ctx.width ctx.functions (compile ctx e expected).value.node.calls e.calls
  | .literal _ value, expected => by
    refine Emits.of_nil ?_
    simp only [compile, compileLiteral, Reported.value_pure]
    repeat' split
    all_goals rfl
  | .paren _ inner, expected => by
    simp only [compile, Expr.calls]
    exact compile_emits ctx inner expected
  | .name span name, expected => by
    refine Emits.of_nil ?_
    simp only [compile]
    split <;> rfl
  | .unary span op operand, expected => by
    -- The operand may be compiled for any type, and then has the same calls.
    simp only [compile, Expr.calls]
    exact compileUnary_emits fun t => compile_emits ctx operand t
  | .binary span op left right, expected => by
    simp only [compile, Expr.calls]
    exact compileBinary_emits (fun t => compile_emits ctx left t)
      fun t => compile_emits ctx right t
  | .assign span op target value, expected => by
    simp only [compile, Expr.calls, Reported.value_bind]
    split
    next => exact .nil
    next v n h =>
      rw [Reported.value_pure, Node.calls_localTee]
      exact compileUpdate_emits (fun t => compile_emits ctx value t) h
  | .call span callee args, expected => by
    simp only [compile, Expr.calls]
    split
    next => exact .nil
    next s hfind =>
      split
      next => exact .nil
      next hlength =>
        rw [Reported.value_bind, Reported.value_pure, Node.calls_call]
        -- This call is the next one, and stands before those in its arguments.
        exact .cons ⟨ctx.bindings, s, hfind, not_not.1 hlength, rfl⟩
          (compileArgs_emits ctx args s.params)
  | .cast _ operand t, expected => by
    simp only [compile, Expr.calls, Reported.value_bind, Reported.value_pure,
      convertExplicit_value, calls_coerce]
    exact compile_emits ctx operand t
termination_by structural e => e

/-- The calls in the code of arguments are compiled from the calls in the arguments. -/
private theorem compileArgs_emits (ctx : Context) : (args : List Expr) → (ts : List Ty) →
    Emits ctx.width ctx.functions (callsAll (compileArgs ctx args ts).value) (Expr.callsAll args)
  | [], ts => .nil
  | arg :: args, [] => .nil
  | arg :: args, t :: ts => by
    simp only [compileArgs, Reported.value_bind, Reported.value_pure, convertImplicit_value,
      Code.callsAll_cons, calls_coerce, Expr.callsAll]
    exact (compile_emits ctx arg t).append (compileArgs_emits ctx args ts)
termination_by structural args => args

end

private theorem compileCondition_emits (ctx : Context) (e : Expr) :
    Emits ctx.width ctx.functions (compileCondition ctx e).value.calls e.calls :=
  Operand.Emits.condition (e := .ofExpr ctx e) fun t => compile_emits ctx e t

private theorem compileDropped_emits (ctx : Context) (e : Expr) :
    Emits ctx.width ctx.functions (compileDropped ctx e).value.calls e.calls := by
  simp only [compileDropped, Reported.value_bind, Reported.value_pure]
  split <;> exact compile_emits ctx e .void

/-- The calls in the code of an expression whose value is not used. -/
theorem compileDiscarded_emits (ctx : Context) : (e : Expr) →
    Emits ctx.width ctx.functions (compileDiscarded ctx e).value.calls e.calls
  | .paren _ inner => by
    simp only [compileDiscarded, Expr.calls]
    exact compileDiscarded_emits ctx inner
  | .assign span op target value => by
    simp only [compileDiscarded, Expr.calls, Reported.value_bind]
    split
    next => exact .nil
    next v n h =>
      rw [Reported.value_pure, Node.calls_localSet]
      exact compileUpdate_emits (fun t => compile_emits ctx value t) h
  | .literal .. | .name .. | .unary .. | .binary .. | .call .. | .cast .. => by
    simp only [compileDiscarded]
    exact compileDropped_emits ctx _

private theorem compileReturned_emits (ctx : Context) (e : Expr) (result : Ty) :
    Emits ctx.width ctx.functions (compileReturned ctx e result).value.calls e.calls := by
  simp only [compileReturned, Reported.value_bind, convertImplicit_value, calls_coerce]
  exact compile_emits ctx e result

/-- The calls in the code of the discriminant of a switch. -/
private theorem compileDiscriminant_emits (ctx : Context) (e : Expr) :
    Emits ctx.width ctx.functions (compileDiscriminant ctx e).value.1.calls e.calls := by
  simp only [compileDiscriminant, Reported.value_bind, Reported.value_pure, convertExplicit_value,
    calls_coerce]
  exact compile_emits ctx e .void

private theorem compileGuard_emits (ctx : Context) (compared : Ty) (e : Expr) :
    Emits ctx.width ctx.functions (compileGuard ctx compared e).value.calls e.calls := by
  simp only [compileGuard, Reported.value_bind, convertExplicit_value, calls_coerce]
  exact compile_emits ctx e compared

/-- An expression that may be missing. -/
private theorem emits_of_mapM {f : Expr → Reported Node}
    (h : ∀ e, Emits ctx.width ctx.functions (f e).value.calls e.calls) (e : Option Expr) :
    Emits ctx.width ctx.functions (callsAll (e.mapM f).value.toList) (Expr.callsOption e) := by
  cases e with
  | none => exact .nil
  | some e =>
    show Emits _ _ (callsAll [(f e).value]) ([e].flatMap Expr.calls)
    simpa using h e

/-- The calls in the code of the initial value of a variable. -/
private theorem compileInitial_emits (ctx : Context) (d : Declarator) (declared : Option Ty) :
    Emits ctx.width ctx.functions (callsAll (compileInitial ctx d declared).value.1.toList)
      (Expr.callsOption d.init) := by
  unfold compileInitial Expr.callsOption
  cases d.init with
  | none => cases declared <;> exact .nil
  | some e =>
    cases declared with
    | some t => simpa using compile_emits ctx e t
    -- A variable without a type is of the type of its value, or `i32` if that is `void`.
    | none =>
      simp only [Reported.value_bind]
      split
      · simpa using compile_emits ctx e .void
      · simpa using compile_emits ctx e .void

end

/-! ## Shapes of statements -/

section

variable {scope : LabelScope} {c b : Node} {ns : List Node}

/-- A sequence of statements calls what they call, whether it needs a block or not. -/
@[simp] theorem calls_sequence : (sequence ns).calls = callsAll ns := by
  rcases ns with _ | ⟨n, _ | ⟨m, ns⟩⟩ <;> simp [sequence]

/-- A part of a statement that is missing calls nothing. -/
@[simp] theorem calls_getD (o : Option Node) : (o.getD .nop).calls = callsAll o.toList := by
  cases o <;> simp

/-- The code of a `while` loop has the calls of its condition first. -/
@[simp] theorem calls_whileNode : (whileNode scope c b).calls = c.calls ++ b.calls := by
  unfold whileNode
  -- A body without code has no calls either.
  split <;> simp

@[simp] theorem calls_doWhileNode : (doWhileNode scope c b).calls = b.calls ++ c.calls := by
  simp [doWhileNode]

/-- The code of a `for` loop has the calls of its condition before those of its body. -/
@[simp] theorem calls_forNode (i o u : Option Node) : (forNode scope i o u b).calls =
    callsAll i.toList ++ (callsAll o.toList ++ (b.calls ++ callsAll u.toList)) := by
  cases o <;> simp [forNode]

/-- The nest of a switch has the calls of its entry first, and then those of the clauses in order.
    -/
private theorem callsAll_nest (entry : List Node) (cases : List Case) :
    callsAll (nest entry cases) =
    callsAll entry ++ cases.flatMap fun c => callsAll c.body := by
  induction cases generalizing entry with
  | nil => simp
  -- Each clause stands after the block of the clauses before it.
  | cons c cases ih =>
    rw [nest_cons, ih]
    simp

/-- The search for the guard that matches keeps the order of the guards. -/
private theorem calls_selectNode {condition position : Nat} {slot : Slot} {guards : List Node}
    {n : Node}
    (h : selectNode condition slot position guards = .ok n) : n.calls = callsAll guards := by
  induction guards generalizing position n with
  | nil =>
    cases h
    rfl
  | cons guard guards ih =>
    obtain ⟨rest, hrest, -, rfl⟩ := selectNode_cons h
    simp [ih hrest]

/-- The code of a switch comes to its guards first, and then to its clauses. -/
theorem calls_dispatchNode {condition : Nat} {slot : Slot} {value n : Node} {cases : List Case}
    (h : dispatchNode scope condition slot value cases = .ok n) :
    n.calls = value.calls ++ (callsAll ((guardedCases cases).map (·.2)) ++
      cases.flatMap fun c => callsAll c.body) := by
  obtain ⟨index, hindex, rfl⟩ := dispatchNode_eq_ok h
  simp [callsAll_nest, calls_selectNode hindex]

end

/-! ## Statements -/

section

variable {fc : FunctionContext}

@[simp] private theorem width_context (st : State) :
    (fc.context st).width = fc.settings.width := rfl

@[simp] private theorem functions_context (st : State) :
    (fc.context st).functions = fc.functions := rfl

/-- The calls in the code of declarations are compiled from the calls in the initial values. -/
private theorem lowerDeclarators_emits {isConst : Bool} {ds : List Declarator} {st st' : State}
    {ns : List Node} (h : lowerDeclarators fc isConst ds st = .ok ns st') :
    Emits fc.settings.width fc.functions (callsAll ns) (Declarator.callsAll ds) := by
  induction ds generalizing st ns with
  | nil =>
    obtain ⟨rfl, -⟩ := lowerDeclarators_nil h
    exact .nil
  | cons d ds ih =>
    obtain ⟨first, st₁, rest, hfirst, hrest, rfl⟩ := lowerDeclarators_cons h
    obtain ⟨rfl, -⟩ := lowerDeclarator_eq_ok hfirst
    have hinitial := compileInitial_emits (fc.context st) d (declaredType? d)
    have hset : Emits fc.settings.width fc.functions (callsAll (initialNodes st.locals.length
        (compileInitial (fc.context st) d (declaredType? d)).value.1
        ((compileInitial (fc.context st) d (declaredType? d)).value.2.slot fc.settings.width)))
        (Expr.callsOption d.init) := by
      unfold initialNodes
      -- Without an initial value the variable is set to a constant.
      split
      next node _ hnode => simpa [hnode] using hinitial
      next => exact .nil
      next => exact .nil
    rw [Code.callsAll_append]
    exact hset.append (ih hrest)

/-- The calls in the code of a `return` statement are compiled from those in its value. -/
private theorem lower_return_emits {value : Option Expr} {span : Span} {st st' : State} {n : Node}
    (h : lower fc (.returnStmt span value) st = .ok n st') :
    Emits fc.settings.width fc.functions n.calls (Expr.callsOption value) := by
  rcases lower_return h with ⟨e, rfl, -, rfl, -⟩ | ⟨rfl, -, rfl, -⟩ | ⟨rfl, -⟩
  · simpa [Expr.callsOption] using compileReturned_emits (fc.context st) e fc.result
  · exact .nil
  · -- What stands for a statement that does not fit the function calls nothing.
    refine Emits.of_nil ?_
    unfold poison
    split <;> rfl

mutual

/-- The calls in the code of a statement are compiled from the calls in the statement. The induction
    is on the statement. -/
theorem lower_emits : (s : Stmt) → ∀ {st st' : State} {n : Node}, lower fc s st = .ok n st' →
    Emits fc.settings.width fc.functions n.calls s.calls
  | .exprStmt _ e, st, st', n, h => by
    obtain ⟨rfl, -⟩ := lower_exprStmt h
    exact compileDiscarded_emits (fc.context st) e
  | .varDecl _ kind ds, st, st', n, h => by
    obtain ⟨sets, hsets, rfl⟩ := lower_varDecl h
    rw [calls_sequence]
    exact lowerDeclarators_emits hsets
  | .returnStmt _ value, st, st', n, h => lower_return_emits h
  | .ifStmt _ c t e, st, st', n, h => by
    obtain ⟨tn, st₁, en, ht, he, rfl⟩ := lower_if h
    -- The condition is evaluated before either of the branches.
    have hall := (compileCondition_emits (fc.context st) c).append
      ((lower_emits t ht).append (lowerOption_emits e he))
    cases en with
    | none => simpa [Stmt.calls] using hall
    | some en => simpa [Stmt.calls] using hall
  | .forStmt _ init c u body, st, st', n, h => by
    obtain ⟨i, st₁, bn, st₂, hinit, hbody, -, rfl, -⟩ := lower_for h
    have hc := emits_of_mapM (compileCondition_emits (fc.context st₂)) c
    have hu := emits_of_mapM (compileDiscarded_emits (fc.context st₂)) u
    rw [calls_forNode, calls_getD]
    exact (lowerOption_emits init hinit).append
      (hc.append ((lowerOption_emits body hbody).append hu))
  | .whileStmt _ c body, st, st', n, h => by
    obtain ⟨bn, st₁, hbody, rfl, -⟩ := lower_while h
    rw [calls_whileNode, calls_getD]
    exact (compileCondition_emits (fc.context st₁) c).append (lowerOption_emits body hbody)
  | .doWhile _ body c, st, st', n, h => by
    obtain ⟨bn, st₁, hbody, rfl, -⟩ := lower_doWhile h
    rw [calls_doWhileNode]
    exact (lower_emits body hbody).append (compileCondition_emits (fc.context st₁) c)
  | .block _ ss, st, st', n, h => by
    obtain ⟨nodes, st₁, hnodes, rfl, -⟩ := lower_block h
    exact lowerAll_emits ss hnodes
  | .breakStmt _, st, st', n, h => by
    obtain ⟨label, -, rfl, -⟩ := lower_break h
    exact .nil
  | .continueStmt _, st, st', n, h => by
    obtain ⟨label, -, rfl, -⟩ := lower_continue h
    exact .nil
  | .switchStmt _ d [], st, st', n, h => by
    obtain ⟨rfl, -⟩ := lower_switch_nil h
    simpa [Stmt.calls, Clause.testCalls, Clause.bodyCalls] using
      compileDropped_emits (fc.context st) d
  | .switchStmt _ d (clause :: clauses), st, st', n, h => by
    obtain ⟨cases, st₁, hclauses, hdispatch, -⟩ := lower_switch (by simp) h
    obtain ⟨hguards, hbodies⟩ := lowerClauses_emits (clause :: clauses) hclauses
    rw [calls_dispatchNode hdispatch]
    exact (compileDiscriminant_emits (fc.context st) d).append (hguards.append hbodies)
  | .empty _, st, st', n, h => by
    obtain ⟨rfl, -⟩ := lower_empty h
    exact .nil
termination_by structural s => s

private theorem lowerOption_emits : (s : Option Stmt) → ∀ {st st' : State} {o : Option Node},
    lowerOption fc s st = .ok o st' →
    Emits fc.settings.width fc.functions (callsAll o.toList) (Stmt.callsOption s)
  | none, st, st', o, h => by
    obtain ⟨rfl, -⟩ := lowerOption_none h
    exact .nil
  | some s, st, st', o, h => by
    obtain ⟨node, hnode, rfl⟩ := lowerOption_some h
    simpa [Stmt.callsOption] using lower_emits s hnode
termination_by structural s => s

theorem lowerAll_emits : (ss : List Stmt) → ∀ {st st' : State} {ns : List Node},
    lowerAll fc ss st = .ok ns st' →
    Emits fc.settings.width fc.functions (callsAll ns) (Stmt.callsAll ss)
  | [], st, st', ns, h => by
    obtain ⟨rfl, -⟩ := lowerAll_nil h
    exact .nil
  | s :: ss, st, st', ns, h => by
    obtain ⟨node, st₁, nodes, hnode, hnodes, rfl⟩ := lowerAll_cons h
    rw [Code.callsAll_cons]
    exact (lower_emits s hnode).append (lowerAll_emits ss hnodes)
termination_by structural ss => ss

/-- The guards of clauses come in the order of their tests, and so do their statements. -/
private theorem lowerClauses_emits {scope : LabelScope} {compared : Ty} : (clauses : List Clause) →
    ∀ {ordinal : Nat} {hasDefault : Bool} {st st' : State} {cases : List Case},
    lowerClauses fc scope compared ordinal hasDefault clauses st = .ok cases st' →
    Emits fc.settings.width fc.functions (callsAll ((guardedCases cases).map (·.2)))
        (Clause.testCalls clauses) ∧
      Emits fc.settings.width fc.functions (cases.flatMap fun c => callsAll c.body)
        (Clause.bodyCalls clauses)
  | [], ordinal, hasDefault, st, st', cases, h => by
    obtain ⟨rfl, -⟩ := lowerClauses_nil h
    exact ⟨.nil, .nil⟩
  | .mk test body span :: clauses, ordinal, hasDefault, st, st', cases, h => by
    obtain ⟨r, st₁, nodes, st₂, rest, htest, hbody, hrest, rfl⟩ := lowerClauses_cons h
    obtain ⟨hguards, hbodies⟩ := lowerClauses_emits clauses hrest
    have hguard : Emits fc.settings.width fc.functions (callsAll r.2.toList)
        (Expr.callsOption test) := by
      rcases lowerTest_eq_ok htest with ⟨e, rfl, rfl, -⟩ | ⟨-, -, rfl, -⟩ | ⟨-, -, rfl, -⟩
      · simpa [Expr.callsOption] using compileGuard_emits (fc.context st) compared e
      · exact .nil
      · exact .nil
    have hfirst : (guardedCases (⟨r.1, r.2, nodes⟩ :: rest)).map (·.2) =
        r.2.toList ++ (guardedCases rest).map (·.2) := by
      unfold guardedCases
      cases r.2 <;> simp
    rw [hfirst, Code.callsAll_append, List.flatMap_cons]
    exact ⟨hguard.append hguards, (lowerAll_emits body hbody).append hbodies⟩
termination_by structural clauses => clauses

end

end

end Weir.Lowering
