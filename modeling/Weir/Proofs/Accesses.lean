import Weir.Proofs.QuietCode

/-!
# Accesses to locals

A tree of code reads locals with `localGet` and writes them with `localSet` and `localTee`.
Expressions are compiled to code that reads variables in scope and writes variables in scope that
may be assigned to: an assignment to a constant is reported.

## Key results

- `Node.subnodes`: all nodes of a tree
- `Node.Confined`: code that accesses only what it may
- `compile_confined`, `compileDiscarded_confined`: expressions are compiled to such code, or a
  problem is reported
-/

namespace Weir.Code

/-! ## The nodes of a tree -/

mutual

/-- All nodes of a tree, each before its parts. -/
@[simp] def Node.subnodes : Node → List Node
  | .nop => [.nop]
  | .unreachable => [.unreachable]
  | .block label ns => .block label ns :: subnodesAll ns
  | .loop label body => .loop label body :: body.subnodes
  | .ifThen slot c t => .ifThen slot c t :: (c.subnodes ++ t.subnodes)
  | .ifElse slot c t e => .ifElse slot c t e :: (c.subnodes ++ (t.subnodes ++ e.subnodes))
  | .select c t e => .select c t e :: (c.subnodes ++ (t.subnodes ++ e.subnodes))
  | .br label => [.br label]
  | .brIf label c => .brIf label c :: c.subnodes
  | .brTable targets fallback e => .brTable targets fallback e :: e.subnodes
  | .ret => [.ret]
  | .retValue e => .retValue e :: e.subnodes
  | .drop e => .drop e :: e.subnodes
  | .const v => [.const v]
  | .localGet index slot => [.localGet index slot]
  | .localSet index e => .localSet index e :: e.subnodes
  | .localTee index slot e => .localTee index slot e :: e.subnodes
  | .unary op slot e => .unary op slot e :: e.subnodes
  | .binary op slot l r => .binary op slot l r :: (l.subnodes ++ r.subnodes)
  | .convert c e => .convert c e :: e.subnodes
  | .call callee args slot => .call callee args slot :: subnodesAll args
termination_by structural n => n

/-- All nodes of trees. -/
@[simp] def subnodesAll : List Node → List Node
  | [] => []
  | n :: ns => n.subnodes ++ subnodesAll ns
termination_by structural ns => ns

end

/-- The nodes of trees side by side. -/
@[simp] theorem subnodesAll_append (ns ms : List Node) :
    subnodesAll (ns ++ ms) = subnodesAll ns ++ subnodesAll ms := by
  induction ns with
  | nil => rfl
  | cons n ns ih => rw [List.cons_append, subnodesAll, subnodesAll, ih, List.append_assoc]

/-- A tree is one of its nodes. -/
theorem Node.mem_subnodes_self (n : Node) : n ∈ n.subnodes := by
  cases n <;> simp

/-! ## Reads and writes -/

/-- Whether a node reads the local with the given number. -/
@[simp] def Node.reads (i : Nat) : Node → Bool
  | .localGet index _ => index = i
  | _ => false

/-- Whether a node writes the local with the given number. -/
@[simp] def Node.writes (i : Nat) : Node → Bool
  | .localSet index _ | .localTee index _ _ => index = i
  | _ => false

/-- Whether a node reads or writes a local. -/
@[simp] def Node.isAccess : Node → Bool
  | .localGet .. | .localSet .. | .localTee .. => true
  | _ => false

/-- A node that reads a local accesses it. -/
theorem Node.isAccess_of_reads {i : Nat} {n : Node} (h : n.reads i) : n.isAccess := by
  cases n <;> first | rfl | cases h

/-- A node that writes a local accesses it. -/
theorem Node.isAccess_of_writes {i : Nat} {n : Node} (h : n.writes i) : n.isAccess := by
  cases n <;> first | rfl | cases h

end Weir.Code

namespace Weir.Lowering

open Weir.Code (Node Slot subnodesAll)
open Weir.Source (Declarator Expr Literal PointerWidth Span Ty)
open Reported (unreported_pure unreported_report_bind)

/-! ## Variables in scope -/

/-- The variable is in one of the scopes, whether or not another one hides it. -/
def Variables.Has (scopes : Variables) (v : Variable) : Prop :=
  ∃ scope ∈ scopes, ∃ name, (name, v) ∈ scope

/-- What a name stands for is in scope. -/
private theorem Variables.has_of_find? {scopes : Variables} {name : String} {v : Variable}
    (h : scopes.find? name = some v) : scopes.Has v := by
  obtain ⟨scope, hscope, hlookup⟩ := List.exists_of_findSome?_eq_some h
  obtain ⟨pre, post, heq, -⟩ := List.lookup_eq_some_iff.1 hlookup
  exact ⟨scope, hscope, name, by simp [heq]⟩

/-- A node may read any local of its own and any variable in scope, and write any local of its own
    and any variable in scope that is not constant. -/
@[simp] def MayAccess (scopes : Variables) (own : Nat → Prop) : Node → Prop
  | .localGet i _ => own i ∨ ∃ v, scopes.Has v ∧ v.index = i
  | .localSet i _ | .localTee i _ _ => own i ∨ ∃ v, scopes.Has v ∧ v.index = i ∧ v.isConst = false
  | _ => True

namespace MayAccess

variable {scopes scopes' : Variables} {own own' : Nat → Prop} {n : Node} {i : Nat}

/-- A node that reads a local reads its own one, or that of a variable in scope. -/
theorem of_reads (h : MayAccess scopes own n) (hn : n.reads i) :
    own i ∨ ∃ v, scopes.Has v ∧ v.index = i := by
  cases n with
  | localGet index slot =>
    obtain rfl : index = i := by simpa using hn
    exact h
  | _ => cases hn

/-- A node that writes a local writes its own one, or that of a variable in scope that is not
    constant. -/
theorem of_writes (h : MayAccess scopes own n) (hn : n.writes i) :
    own i ∨ ∃ v, scopes.Has v ∧ v.index = i ∧ v.isConst = false := by
  cases n with
  | localSet index e =>
    obtain rfl : index = i := by simpa using hn
    exact h
  | localTee index slot e =>
    obtain rfl : index = i := by simpa using hn
    exact h
  | _ => cases hn

/-- A node that is no access may be anywhere. -/
theorem of_not_isAccess (h : n.isAccess = false) : MayAccess scopes own n := by
  cases n with
  | localGet | localSet | localTee => cases h
  | _ => trivial

/-- Variables in scope may be made locals of its own. -/
theorem mono (h : MayAccess scopes own n) (hown : ∀ i, own i → own' i)
    (hscopes : ∀ v, scopes.Has v → scopes'.Has v ∨ own' v.index) :
    MayAccess scopes' own' n := by
  cases n with
  | localGet index slot =>
    -- A local of a variable in scope stays one, or becomes the own local of the code.
    rcases h with h | ⟨v, hv, rfl⟩
    · exact .inl (hown index h)
    · exact (hscopes v hv).symm.imp_right fun hv => ⟨v, hv, rfl⟩
  | localSet index e =>
    rcases h with h | ⟨v, hv, rfl, hconst⟩
    · exact .inl (hown index h)
    · exact (hscopes v hv).symm.imp_right fun hv => ⟨v, hv, rfl, hconst⟩
  | localTee index slot e =>
    rcases h with h | ⟨v, hv, rfl, hconst⟩
    · exact .inl (hown index h)
    · exact (hscopes v hv).symm.imp_right fun hv => ⟨v, hv, rfl, hconst⟩
  | _ => trivial

end MayAccess

/-- All nodes of the tree access only what they may. -/
def Node.Confined (scopes : Variables) (own : Nat → Prop) (n : Node) : Prop :=
  ∀ m ∈ n.subnodes, MayAccess scopes own m

namespace Node.Confined

variable {scopes : Variables} {own : Nat → Prop}

/-- Nodes side by side. -/
theorem all_iff {ns : List Node} : (∀ m ∈ subnodesAll ns, MayAccess scopes own m) ↔
    ∀ n ∈ ns, Node.Confined scopes own n := by
  induction ns with
  | nil => simp
  | cons n ns ih => simp only [subnodesAll, List.forall_mem_append, List.forall_mem_cons, ih,
      Node.Confined]

variable {label : Option Code.Label} {op : Code.UnaryOp} {op' : Code.BinaryOp}
  {conversion : Code.Conversion} {slot : Slot} {callee index : Nat} {v : Code.Value}
  {n c t e l r : Node} {ns : List Node}

@[simp] theorem const : Node.Confined scopes own (.const v) := by
  simp [Node.Confined]

@[simp] theorem unreachable : Node.Confined scopes own .unreachable := by
  simp [Node.Confined]

@[simp] theorem nop : Node.Confined scopes own .nop := by
  simp [Node.Confined]

@[simp] theorem ret : Node.Confined scopes own .ret := by
  simp [Node.Confined]

@[simp] theorem br {label : Code.Label} : Node.Confined scopes own (.br label) := by
  simp [Node.Confined]

@[simp] theorem retValue :
    Node.Confined scopes own (.retValue n) ↔ Node.Confined scopes own n := by
  simp [Node.Confined]

@[simp] theorem unary :
    Node.Confined scopes own (.unary op slot n) ↔ Node.Confined scopes own n := by
  simp [Node.Confined]

@[simp] theorem convert :
    Node.Confined scopes own (.convert conversion n) ↔ Node.Confined scopes own n := by
  simp [Node.Confined]

@[simp] theorem drop : Node.Confined scopes own (.drop n) ↔ Node.Confined scopes own n := by
  simp [Node.Confined]

@[simp] theorem binary : Node.Confined scopes own (.binary op' slot l r) ↔
    Node.Confined scopes own l ∧ Node.Confined scopes own r := by
  simp [Node.Confined, or_imp, forall_and]

@[simp] theorem ifElse : Node.Confined scopes own (.ifElse slot c t e) ↔
    Node.Confined scopes own c ∧ Node.Confined scopes own t ∧ Node.Confined scopes own e := by
  simp [Node.Confined, or_imp, forall_and]

/-- A block of nodes. -/
@[simp] theorem block : Node.Confined scopes own (.block label ns) ↔
    ∀ n ∈ ns, Node.Confined scopes own n := by
  rw [← all_iff]
  simp [Node.Confined]

/-- A call, whose arguments are its only code. -/
@[simp] theorem call : Node.Confined scopes own (.call callee ns slot) ↔
    ∀ n ∈ ns, Node.Confined scopes own n := by
  rw [← all_iff]
  simp [Node.Confined]

@[simp] theorem localGet : Node.Confined scopes own (.localGet index slot) ↔
    MayAccess scopes own (.localGet index slot) := by
  simp [Node.Confined]

@[simp] theorem localSet : Node.Confined scopes own (.localSet index n) ↔
    MayAccess scopes own (.localSet index n) ∧ Node.Confined scopes own n := by
  simp [Node.Confined]

@[simp] theorem localTee : Node.Confined scopes own (.localTee index slot n) ↔
    MayAccess scopes own (.localTee index slot n) ∧ Node.Confined scopes own n := by
  simp [Node.Confined]

end Node.Confined

/-! ## Conversions -/

section

variable {w : PointerWidth} {scopes : Variables} {own : Nat → Prop} {n : Node}

/-- A value is brought into the range of its type without a local. -/
private theorem normalize_confined {t : Ty} (h : Node.Confined scopes own n) :
    Node.Confined scopes own (normalize n t) := by
  cases t <;> simp [normalize, Node.i32Const, h]

/-- A value is brought into another slot without a local. -/
private theorem changeSlot_confined (source target : Ty) (h : Node.Confined scopes own n) :
    Node.Confined scopes own (changeSlot w n source target) := by
  unfold changeSlot
  repeat' split
  all_goals simp [h]

/-- A value is tested against zero without a local. -/
private theorem truthTest_confined (s : Slot) (h : Node.Confined scopes own n) :
    Node.Confined scopes own (truthTest n s) := by
  unfold truthTest
  split
  · simp [h]
  · simp [absent, h]

/-- A conversion accesses nothing. -/
private theorem coerce_confined {source target : Ty} (h : Node.Confined scopes own n) :
    Node.Confined scopes own (coerce w n source target) := by
  have hchanged := changeSlot_confined (w := w) (source.resolve w) (target.resolve w) h
  unfold coerce coerceResolved
  dsimp only
  -- The cases are those of the conversion; only the last two change the slot of the value.
  split
  · exact h
  split
  · simp [h]
  split
  · simp [absent, h]
  split
  · exact truthTest_confined _ h
  split
  · exact normalize_confined hchanged
  · exact hchanged

/-- An implicit conversion accesses what its operand does. -/
private theorem convertImplicit_confined {source target : Ty} {span : Span}
    (h : Node.Confined scopes own n) :
    (convertImplicit w n source target span).Unreported (Node.Confined scopes own) := by
  intro _
  rw [convertImplicit_value]
  exact coerce_confined h

/-- An explicit conversion accesses what its operand does. -/
private theorem convertExplicit_confined {source target : Ty} {span : Span}
    (h : Node.Confined scopes own n) :
    (convertExplicit w n source target span).Unreported (Node.Confined scopes own) := by
  intro _
  rw [convertExplicit_value]
  exact coerce_confined h

end

/-! ## Operands -/

/-- An operand compiles to confined code for every type that is expected of it, or is reported. -/
def Operand.Confined (scopes : Variables) (own : Nat → Prop) (e : Operand) : Prop :=
  ∀ expected, (e.compile expected).Unreported fun c => Node.Confined scopes own c.node

section

variable {w : PointerWidth} {scopes : Variables} {own : Nat → Prop} {e left right : Operand}
  {expected : Ty} {span : Span}

/-- A condition accesses what its operand does. -/
private theorem Operand.Confined.condition (h : e.Confined scopes own) :
    (e.condition w).Unreported (Node.Confined scopes own) :=
  (h .bool).bind fun _ hc => convertExplicit_confined hc

/-- An operand stays confined if it is compiled again for another type. -/
private theorem Operand.Confined.retype (h : e.Confined scopes own) {c : Compiled} {common : Ty}
    (hc : Node.Confined scopes own c.node) :
    (e.retype c common).Unreported fun c => Node.Confined scopes own c.node := by
  unfold Operand.retype
  split
  · exact h common
  · exact unreported_pure hc

/-- An operator that may leave its right operand out accesses what both operands do. -/
private theorem compileLogical_confined (isAnd : Bool) (hl : left.Confined scopes own)
    (hr : right.Confined scopes own) :
    (compileLogical w isAnd left right).Unreported fun c => Node.Confined scopes own c.node := by
  refine hl.condition.bind fun l hl => hr.condition.bind fun r hr => unreported_pure ?_
  cases isAnd <;> simp [hl, hr, Node.i32Const]

/-- An operator on two values accesses what both operands do. -/
private theorem compileStrict_confined {op : Source.BinaryOp} (hl : left.Confined scopes own)
    (hr : right.Confined scopes own) :
    (compileStrict w op left right expected span).Unreported
      fun c => Node.Confined scopes own c.node := by
  unfold compileStrict
  refine (hl _).bind fun l hlc => (hr _).bind fun r hrc => ?_
  dsimp only
  by_cases hvoid : (unify w l.ty r.ty).isVoid
  · rw [if_pos hvoid]
    exact poisoned_unreported
  rw [if_neg hvoid]
  -- A literal that is compiled again is still confined, and other operands are kept.
  refine (hl.retype hlc).bind fun l hlc => (hr.retype hrc).bind fun r hrc => ?_
  split
  · exact poisoned_unreported
  next code _ =>
    refine (convertImplicit_confined hlc).bind fun ln hln => ?_
    refine (convertImplicit_confined hrc).bind fun rn hrn => unreported_pure ?_
    -- The operator itself accesses nothing.
    have hnode (s : Slot) : Node.Confined scopes own (.binary code s ln rn) := by
      simp [hln, hrn]
    split
    · exact hnode _
    · exact normalize_confined (hnode _)

/-- A binary operator accesses what its operands do. -/
private theorem compileBinary_confined {op : Source.BinaryOp} (hl : left.Confined scopes own)
    (hr : right.Confined scopes own) :
    (compileBinary w op left right expected span).Unreported
      fun c => Node.Confined scopes own c.node := by
  cases op with
  | and => exact compileLogical_confined true hl hr
  | or => exact compileLogical_confined false hl hr
  | _ => exact compileStrict_confined hl hr

/-- A literal is a constant. -/
private theorem compileLiteral_confined {literal : Literal} :
    Node.Confined scopes own (compileLiteral w literal expected).node := by
  unfold compileLiteral
  dsimp only
  repeat' split
  all_goals simp

/-- A unary operator accesses what its operand does. -/
private theorem compileUnary_confined {op : Source.UnaryOp} {literal? : Option Literal}
    (h : e.Confined scopes own) :
    (compileUnary w op e literal? expected span).Unreported
      fun c => Node.Confined scopes own c.node := by
  unfold compileUnary
  split
  · exact h expected
  · exact h.condition.bind fun test htest => unreported_pure (by simp [htest])
  · exact unreported_pure compileLiteral_confined
  · exact unreported_pure compileLiteral_confined
  · -- A minus sign: a float is negated, and an integer subtracted from zero.
    refine (h expected).bind fun c hc => ?_
    dsimp only
    split
    · exact unreported_pure (by simp [hc])
    split
    · refine unreported_pure (normalize_confined ?_)
      split <;> simp [hc]
    · exact poisoned_unreported
  · -- A complement: the operand is combined with a constant.
    refine (h expected).bind fun c hc => ?_
    dsimp only
    split
    · refine unreported_pure (normalize_confined ?_)
      split <;> simp [hc, Node.i32Const, Node.i64Const]
    · exact poisoned_unreported

end

/-! ## Expressions -/

section

variable {ctx : Context} {own : Nat → Prop}

/-- A variable in scope may be read. -/
private theorem readVariable_confined {w : PointerWidth} {v : Variable}
    (h : ctx.bindings.Has v) : Node.Confined ctx.bindings own (readVariable w v).node := by
  simp only [readVariable, Node.Confined.localGet, MayAccess]
  exact .inr ⟨v, h, rfl⟩

/-- An assignment is to a variable in scope that is not constant, or it is reported. -/
private theorem compileUpdate_confined {op : Source.AssignOp} {target : Source.Ident}
    {value : Operand} {span : Span} (hvalue : value.Confined ctx.bindings own) :
    (compileUpdate ctx op target value span).Unreported
      fun update => ∃ v n, update = some (v, n) ∧
        (∃ u, ctx.bindings.Has u ∧ u.index = v.index ∧ u.isConst = false) ∧
        Node.Confined ctx.bindings own n := by
  unfold compileUpdate
  cases hfind : ctx.bindings.find? target.name with
  | none => exact unreported_report_bind
  | some v =>
    have hv := Variables.has_of_find? hfind
    dsimp only
    -- An assignment to a constant is reported, and there is nothing to show then.
    by_cases hconst : v.isConst = true
    · rw [if_pos hconst]
      exact unreported_report_bind
    rw [if_neg hconst]
    -- What is left is to convert the new value to the type of the variable.
    have hassign : ∀ c : Compiled, Node.Confined ctx.bindings own c.node → (do
        let node ← convertImplicit ctx.width c.node c.ty v.ty value.span
        pure (some (v, node)) : Reported (Option (Variable × Node))).Unreported
        fun update => ∃ v n, update = some (v, n) ∧
          (∃ u, ctx.bindings.Has u ∧ u.index = v.index ∧ u.isConst = false) ∧
          Node.Confined ctx.bindings own n :=
      fun c hc => (convertImplicit_confined hc).bind fun n hn =>
        unreported_pure ⟨v, n, rfl, ⟨v, hv, rfl, by simpa using hconst⟩, hn⟩
    split
    · exact (hvalue v.ty).bind hassign
    · -- A compound assignment reads the variable that it writes.
      refine Reported.Unreported.bind (compileBinary_confined (fun _ => ?_) hvalue) hassign
      exact unreported_pure (readVariable_confined hv)

mutual

/-- An expression is compiled to code that accesses only variables in scope, and writes no constant,
    or a problem is reported. The induction is on the expression. -/
theorem compile_confined (own : Nat → Prop) (ctx : Context) : (e : Expr) → (expected : Ty) →
    (compile ctx e expected).Unreported fun c => Node.Confined ctx.bindings own c.node
  | .literal _ value, expected => by
    simp only [compile]
    exact unreported_pure compileLiteral_confined
  | .paren _ inner, expected => by
    simp only [compile]
    exact compile_confined own ctx inner expected
  | .name span name, expected => by
    simp only [compile]
    split
    next v hfind => exact unreported_pure (readVariable_confined (Variables.has_of_find? hfind))
    next => exact poisoned_unreported
  | .unary span op operand, expected => by
    simp only [compile]
    exact compileUnary_confined fun t => compile_confined own ctx operand t
  | .binary span op left right, expected => by
    simp only [compile]
    exact compileBinary_confined (fun t => compile_confined own ctx left t)
      fun t => compile_confined own ctx right t
  | .assign span op target value, expected => by
    simp only [compile]
    refine (compileUpdate_confined fun t => compile_confined own ctx value t).bind ?_
    rintro update ⟨v, n, rfl, hv, hn⟩
    -- The variable is in scope and not constant, so its local may be written.
    exact unreported_pure (Node.Confined.localTee.2 ⟨.inr hv, hn⟩)
  | .call span callee args, expected => by
    simp only [compile]
    split
    next => exact poisoned_unreported
    next s _ =>
      split
      next => exact poisoned_unreported
      next =>
        exact (compileArgs_confined own ctx args s.params).bind fun ns hns =>
          unreported_pure (Node.Confined.call.2 hns)
  | .cast _ operand t, expected => by
    simp only [compile]
    refine (compile_confined own ctx operand t).bind fun c hc => ?_
    exact (convertExplicit_confined hc).bind fun n hn => unreported_pure hn
termination_by structural e => e

/-- Arguments are compiled to confined code, or a problem is reported. -/
private theorem compileArgs_confined (own : Nat → Prop) (ctx : Context) : (args : List Expr) →
    (params : List Ty) → (compileArgs ctx args params).Unreported
      fun ns => ∀ n ∈ ns, Node.Confined ctx.bindings own n
  | [], _ => by
    simp only [compileArgs]
    exact unreported_pure (by simp)
  | _ :: _, [] => by
    simp only [compileArgs]
    exact unreported_pure (by simp)
  | arg :: args, t :: ts => by
    simp only [compileArgs]
    refine (compile_confined own ctx arg t).bind fun c hc => ?_
    refine (convertImplicit_confined hc).bind fun n hn => ?_
    refine (compileArgs_confined own ctx args ts).bind fun ns hns => unreported_pure ?_
    exact List.forall_mem_cons.2 ⟨hn, hns⟩
termination_by structural args => args

end

variable (own ctx)

/-- The code of a condition is confined. -/
theorem compileCondition_confined (e : Expr) :
    (compileCondition ctx e).Unreported (Node.Confined ctx.bindings own) :=
  Operand.Confined.condition fun t => compile_confined own ctx e t

/-- The code of an expression whose value is dropped is confined. -/
theorem compileDropped_confined (e : Expr) :
    (compileDropped ctx e).Unreported (Node.Confined ctx.bindings own) := by
  refine (compile_confined own ctx e .void).bind fun c hc => unreported_pure ?_
  split
  · exact hc
  · exact Node.Confined.drop.2 hc

/-- The code of an expression whose value is not used is confined. -/
theorem compileDiscarded_confined :
    (e : Expr) → (compileDiscarded ctx e).Unreported (Node.Confined ctx.bindings own)
  | .paren _ inner => by
    simp only [compileDiscarded]
    exact compileDiscarded_confined inner
  | .assign span op target value => by
    simp only [compileDiscarded]
    refine (compileUpdate_confined fun t => compile_confined own ctx value t).bind ?_
    rintro update ⟨v, n, rfl, hv, hn⟩
    exact unreported_pure (Node.Confined.localSet.2 ⟨.inr hv, hn⟩)
  | .literal .. | .name .. | .unary .. | .binary .. | .call .. | .cast .. => by
    simp only [compileDiscarded]
    exact compileDropped_confined ctx own _

/-! ## Parts of statements -/

/-- The code of a returned value is confined. -/
theorem compileReturned_confined (e : Expr) (t : Ty) :
    (compileReturned ctx e t).Unreported (Node.Confined ctx.bindings own) :=
  (compile_confined own ctx e t).bind fun _ hc => convertImplicit_confined hc

/-- The code of the discriminant of a switch is confined. -/
theorem compileDiscriminant_confined (e : Expr) :
    (compileDiscriminant ctx e).Unreported fun r => Node.Confined ctx.bindings own r.1 := by
  refine (compile_confined own ctx e .void).bind fun c hc => ?_
  exact (convertExplicit_confined hc).bind fun n hn => unreported_pure hn

/-- The code of a guard is confined. -/
theorem compileGuard_confined (compared : Ty) (e : Expr) :
    (compileGuard ctx compared e).Unreported (Node.Confined ctx.bindings own) :=
  (compile_confined own ctx e compared).bind fun _ hc => convertExplicit_confined hc

/-- The code of an initial value is confined. The variable is not in scope in it. -/
theorem compileInitial_confined (d : Declarator) (declared : Option Ty) :
    (compileInitial ctx d declared).Unreported
      fun r => ∀ n ∈ r.1, Node.Confined ctx.bindings own n := by
  unfold compileInitial
  split
  next e t _ =>
    refine (compile_confined own ctx e t).bind fun c hc => ?_
    refine (convertImplicit_confined hc).bind fun n hn => unreported_pure ?_
    exact fun m hm => by cases hm; exact hn
  next e _ =>
    refine (compile_confined own ctx e .void).bind fun c hc => ?_
    split
    · refine (convertExplicit_confined hc).bind fun n hn => unreported_pure ?_
      exact fun m hm => by cases hm; exact hn
    · exact unreported_pure fun m hm => by cases hm; exact hc
  next => exact unreported_pure fun m hm => by cases hm
  next => exact unreported_report_bind

/-- An expression that may be missing is confined, or it is reported. -/
theorem confined_of_mapM {compiled : Expr → Reported Node}
    (h : ∀ e, (compiled e).Unreported (Node.Confined ctx.bindings own)) (o : Option Expr) :
    (o.mapM compiled).Unreported fun o => ∀ n ∈ o, Node.Confined ctx.bindings own n := by
  cases o with
  | none => exact unreported_pure fun n hn => by cases hn
  | some e => exact (h e).bind fun n hn => unreported_pure fun m hm => by cases hm; exact hn

end

end Weir.Lowering
