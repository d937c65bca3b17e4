import Weir.Proofs.ExpressionTyping
import Weir.Proofs.LowerProgress

/-!
# Typing of lowered statements

A lowered statement is typed inside all labels that cover the scopes it is lowered in: the labels of
these scopes are among them, and none of them has a number that lowering the statement gives out.
Statements yield nothing.

## Key results

- `nest_typed`: the nest of blocks of a switch is typed if its dispatch and its clauses are
- `lower_typed`, `lowerAll_typed`: lowered statements are typed
-/

namespace Weir.Lowering

open Weir.Code (Label Local Node Slot TypeContext TypedAll Value)
open Weir.Source (Clause Declarator Expr PointerWidth Span Stmt Ty)

variable {Γ : TypeContext} {labels : List Label} {fc : FunctionContext}

/-! ## Labels around a statement -/

/-- Inside these labels, jumps to the given scopes find their targets, and the numbers from `lo` up
    to `hi` are not in use. -/
structure Covers (labels : List Label) (scopes : List LabelScope) (lo hi : Nat) : Prop where
  exit : ∀ scope ∈ scopes, scope.label .exit ∈ labels
  next : ∀ scope ∈ scopes, scope.kind = .loop → scope.label .next ∈ labels
  fresh : ∀ l ∈ labels, l.scope < lo ∨ hi ≤ l.scope

namespace Covers

variable {scopes : List LabelScope} {lo hi lo' hi' : Nat}

/-- Fewer numbers are not in use either. -/
theorem mono (h : Covers labels scopes lo hi) (hlo : lo ≤ lo') (hhi : hi' ≤ hi) :
    Covers labels scopes lo' hi' where
  exit := h.exit
  next := h.next
  fresh l hl := by
    -- Numbers that were below or above stay so for a smaller range.
    rcases h.fresh l hl with hlt | hle
    · exact .inl (by omega)
    · exact .inr (by omega)

/-- More labels cover the same scopes, if their numbers are not given out. -/
theorem append (h : Covers labels scopes lo hi) (ls : List Label)
    (hls : ∀ l ∈ ls, l.scope < lo ∨ hi ≤ l.scope) : Covers (ls ++ labels) scopes lo hi where
  exit scope hscope := List.mem_append_right _ (h.exit scope hscope)
  next scope hscope hkind := List.mem_append_right _ (h.next scope hscope hkind)
  fresh l hl := (List.mem_append.1 hl).elim (hls l) (h.fresh l)

/-- A new scope is covered by labels of its own. -/
private theorem enter (h : Covers labels scopes lo hi) (scope : LabelScope) (ls : List Label)
    (hid : scope.id = lo) (hls : ∀ l ∈ ls, l.scope = lo) (hexit : scope.label .exit ∈ ls)
    (hnext : scope.kind = .loop → scope.label .next ∈ ls) :
    Covers (ls ++ labels) (scope :: scopes) (lo + 1) hi where
  exit s hs := by
    rcases List.mem_cons.1 hs with rfl | hmem
    · exact List.mem_append_left _ hexit
    · exact List.mem_append_right _ (h.exit s hmem)
  next s hs hkind := by
    rcases List.mem_cons.1 hs with rfl | hmem
    · exact List.mem_append_left _ (hnext hkind)
    · exact List.mem_append_right _ (h.next s hmem hkind)
  fresh l hl := by
    rcases List.mem_append.1 hl with hmem | hmem
    · have := hls l hmem
      exact .inl (by omega)
    -- Labels around the scope are of older scopes or of later ones.
    · rcases h.fresh l hmem with hlt | hle
      · exact .inl (by omega)
      · exact .inr hle

/-- The next number is not that of a label in use. -/
private theorem scope_ne (h : Covers labels scopes lo hi) (hlt : lo < hi) :
    ∀ l ∈ labels, l.scope ≠ lo := by
  intro l hl
  rcases h.fresh l hl with hlt' | hle <;> omega

/-- What covers the whole of a lowering covers its rest. -/
private theorem rest {w : PointerWidth} {st st₁ : State} (hst : st.Advances w st₁)
    (h : Covers labels st.labels.scopes st.labels.next hi) :
    Covers labels st₁.labels.scopes st₁.labels.next hi := by
  rw [hst.scopes]
  exact h.mono hst.next (Nat.le_refl _)

/-- A `break` branches to a label that is bound around it. -/
private theorem mem_of_breakTarget {stack : LabelStack} {l : Label}
    (h : Covers labels stack.scopes lo hi) (hl : stack.breakTarget = .ok l) : l ∈ labels := by
  obtain ⟨s, hs, rfl⟩ := LabelStack.breakTarget_eq_ok hl
  exact h.exit s hs

/-- A `continue` branches to a label that is bound around it. -/
private theorem mem_of_continueTarget {stack : LabelStack} {l : Label}
    (h : Covers labels stack.scopes lo hi) (hl : stack.continueTarget = .ok l) : l ∈ labels := by
  obtain ⟨s, hs, hkind, rfl⟩ := LabelStack.continueTarget_eq_ok hl
  exact h.next s hs hkind

end Covers

/-! ## Contexts -/

/-- The context of typing has the result of the function, and a callee for each callable. -/
structure FunctionContext.Fits (fc : FunctionContext) (Γ : TypeContext) : Prop where
  result : Γ.result = fc.result.slot fc.settings.width
  callables : ∀ name s, fc.functions.find? name = some s → Γ.callee? s.id =
    some (s.params.map (·.slot fc.settings.width), s.result.slot fc.settings.width)

/-- The locals of a state, and maybe more, are what the context of typing has. -/
def State.LocalsOf (st : State) (Γ : TypeContext) : Prop :=
  st.locals.map Local.slot <+: Γ.locals

namespace State

variable {w : PointerWidth} {st st' : State}

/-- A state that has come earlier has fewer of the locals. -/
theorem LocalsOf.of_advances (h : st'.LocalsOf Γ) (hst : st.Advances w st') : st.LocalsOf Γ :=
  (hst.locals.map _).trans h

/-- A local keeps its slot to the end of the function. -/
theorem LocalsOf.getElem? (h : st.LocalsOf Γ) {index : Nat} {slot : Slot}
    (hlocal : st.locals[index]?.map Local.slot = some slot) : Γ.locals[index]? = some slot := by
  obtain ⟨more, heq⟩ := h
  rw [← List.getElem?_map] at hlocal
  rw [← heq, List.getElem?_append_left (List.getElem?_eq_some_iff.1 hlocal).1, hlocal]

/-- What is compiled in a state fits the context of typing. -/
theorem LocalsOf.fits (h : st.LocalsOf Γ) (hfc : fc.Fits Γ)
    (hbound : st.WellBound fc.settings.width) : (fc.context st).Fits Γ where
  bindings _ _ hfind := h.getElem? (hbound.find? hfind)
  callables := hfc.callables

end State

/-! ## Statements without statements in them -/

variable {st st' : State}

/-- What stands for a statement in error yields nothing. -/
private theorem poison_typed : (poison fc).Typed Γ labels .none := by
  unfold poison
  split
  · exact .unreachable
  · exact .nop

/-- A returned value is in the slot of the result. -/
private theorem lower_return_typed (hfc : fc.Fits Γ) (hbound : st.WellBound fc.settings.width)
    (hlocals : st'.LocalsOf Γ) {value : Option Expr} {span : Span} {n : Node}
    (h : lower fc (.returnStmt span value) st = .ok n st') : n.Typed Γ labels .none := by
  rcases lower_return h with ⟨e, -, -, rfl, rfl⟩ | ⟨-, hvoid, rfl, -⟩ | ⟨rfl, -⟩
  · refine .retValue ?_
    rw [hfc.result]
    simp only [compileReturned, Reported.value_bind, convertImplicit_value]
    exact coerce_typed (compile_typed (State.LocalsOf.fits hlocals hfc hbound) e fc.result)
  · refine .ret ?_
    rw [hfc.result]
    exact Ty.slot_of_isVoid hvoid
  · exact poison_typed

/-- The initial value of a variable lies in the slot of the type of the variable. -/
private theorem compileInitial_typed {ctx : Context} (hctx : ctx.Fits Γ) (d : Declarator)
    (declared : Option Ty) {n : Node}
    (h : (compileInitial ctx d declared).value.1 = some n) :
    n.Typed Γ labels ((compileInitial ctx d declared).value.2.slot ctx.width) := by
  obtain ⟨e, expected, hconverted | ⟨hcompiled, ht⟩⟩ := compileInitial_eq_some h
  · rw [hconverted]
    exact coerce_typed (compile_typed hctx e expected)
  · rw [hcompiled, ht]
    exact compile_typed hctx e expected

/-- A declarator sets its local to a value of the local's slot. -/
private theorem lowerDeclarator_typed (hfc : fc.Fits Γ) (hbound : st.WellBound fc.settings.width)
    (hlocals : st'.LocalsOf Γ) {isConst : Bool} {d : Declarator} {ns : List Node}
    (h : lowerDeclarator fc isConst d st = .ok ns st') : ∀ n ∈ ns, n.Typed Γ labels .none := by
  have hctx := (hlocals.of_advances (lowerDeclarator_advances h)).fits hfc hbound
  obtain ⟨rfl, reports, rfl⟩ := lowerDeclarator_eq_ok h
  -- The local has the slot of the type that the variable gets in the end.
  generalize hr : (compileInitial (fc.context st) d (declaredType? d)).value = r at *
  have hlocal : Γ.locals[st.locals.length]? = some (r.2.slot fc.settings.width) :=
    hlocals.getElem? (st.slot_declared d.ident.name _)
  intro n hn
  unfold initialNodes at hn
  split at hn
  next node hinitial =>
    obtain rfl := List.mem_singleton.1 hn
    have hnode : node.Typed Γ labels _ :=
      compileInitial_typed hctx d (declaredType? d) (hr ▸ hinitial)
    rw [hr] at hnode
    exact .localSet hlocal hnode
  next zero hzero =>
    obtain rfl := List.mem_singleton.1 hn
    have hslot := Value.slot_zero hzero
    exact .localSet hlocal (hslot ▸ .const)
  next => cases hn

/-- Every node of a declaration yields nothing. -/
private theorem lowerDeclarators_typed (hfc : fc.Fits Γ) (hbound : st.WellBound fc.settings.width)
    (hlocals : st'.LocalsOf Γ) {isConst : Bool} {ds : List Declarator} {ns : List Node}
    (h : lowerDeclarators fc isConst ds st = .ok ns st') : ∀ n ∈ ns, n.Typed Γ labels .none := by
  induction ds generalizing st ns with
  | nil =>
    obtain ⟨rfl, -⟩ := lowerDeclarators_nil h
    simp
  | cons d ds ih =>
    obtain ⟨first, st₁, rest, hfirst, hrest, rfl⟩ := lowerDeclarators_cons h
    -- What the other declarators allot comes behind the local of the first.
    have hfirst_typed : ∀ n ∈ first, n.Typed Γ labels .none :=
      lowerDeclarator_typed hfc hbound (hlocals.of_advances (lowerDeclarators_advances hrest))
        hfirst
    have hrest_typed := ih ((lowerDeclarator_advances hfirst).wellBound hbound) hrest
    exact fun n hn => (List.mem_append.1 hn).elim (hfirst_typed n) (hrest_typed n)

/-- Statements in a sequence yield nothing together. -/
private theorem sequence_typed {ns : List Node} (h : ∀ n ∈ ns, n.Typed Γ labels .none) :
    (sequence ns).Typed Γ labels .none := by
  unfold sequence
  split
  · exact .nop
  · exact h _ (by simp)
  · exact .sequence (.of_forall h)

/-! ## Loops -/

section

variable {scope : LabelScope} {c b : Node}

/-- The labels of a scope are different from each other and from those of other scopes. -/
private theorem label_not_mem {kind : Code.LabelKind} (kinds : List Code.LabelKind)
    (hfresh : ∀ l ∈ labels, l.scope ≠ scope.id) (hne : kind ∉ kinds) :
    scope.label kind ∉ kinds.map scope.label ++ labels := by
  intro hmem
  rcases List.mem_append.1 hmem with hmem | hmem
  · obtain ⟨kind', hkind', heq⟩ := List.mem_map.1 hmem
    cases heq
    exact hne hkind'
  · exact hfresh _ hmem rfl

/-- The loop of a `while` binds its two labels around test and body. -/
private theorem whileNode_typed (hfresh : ∀ l ∈ labels, l.scope ≠ scope.id)
    (hc : c.Typed Γ (scope.label .next :: scope.label .exit :: labels) .i32)
    (hb : b.Typed Γ (scope.label .next :: scope.label .exit :: labels) .none) :
    (whileNode scope c b).Typed Γ labels .none := by
  have hagain : (Node.br (scope.label .next)).Typed Γ
      (scope.label .next :: scope.label .exit :: labels) .none := .br (by simp)
  refine .block (label_not_mem [] hfresh (by simp)) (.last (.loop
    (label_not_mem [.exit] hfresh (by simp)) (.ifThen hc ?_)))
  split
  · exact hagain
  · exact .sequence (.of_forall (by simp [hb, hagain]))

/-- The body of a `do while` stands in a block of its own, which `continue` leaves. -/
private theorem doWhileNode_typed (hfresh : ∀ l ∈ labels, l.scope ≠ scope.id)
    (hc : c.Typed Γ (scope.label .head :: scope.label .exit :: labels) .i32)
    (hb : b.Typed Γ (scope.label .next :: scope.label .head :: scope.label .exit :: labels) .none) :
    (doWhileNode scope c b).Typed Γ labels .none := by
  have hbody : (Node.block (some (scope.label .next)) [b]).Typed Γ
      (scope.label .head :: scope.label .exit :: labels) .none :=
    .block (label_not_mem [.head, .exit] hfresh (by simp)) (.last hb)
  have hagain : (Node.brIf (scope.label .head) c).Typed Γ
      (scope.label .head :: scope.label .exit :: labels) .none := .brIf (by simp) hc
  exact .block (label_not_mem [] hfresh (by simp)) (.last (.loop
    (label_not_mem [.exit] hfresh (by simp))
    (.sequence (.of_forall (by simp [hbody, hagain])))))

/-- The initial statement of a `for` stands within its exit and outside of its loop. -/
private theorem forNode_typed {i c u : Option Node} (hfresh : ∀ l ∈ labels, l.scope ≠ scope.id)
    (hi : ∀ n ∈ i, n.Typed Γ (scope.label .exit :: labels) .none)
    (hc : ∀ n ∈ c, n.Typed Γ (scope.label .head :: scope.label .exit :: labels) .i32)
    (hu : ∀ n ∈ u, n.Typed Γ (scope.label .head :: scope.label .exit :: labels) .none)
    (hb : b.Typed Γ (scope.label .next :: scope.label .head :: scope.label .exit :: labels) .none) :
    (forNode scope i c u b).Typed Γ labels .none := by
  have hbody : (Node.block (some (scope.label .next)) [b]).Typed Γ
      (scope.label .head :: scope.label .exit :: labels) .none :=
    .block (label_not_mem [.head, .exit] hfresh (by simp)) (.last hb)
  have hagain : (Node.br (scope.label .head)).Typed Γ
      (scope.label .head :: scope.label .exit :: labels) .none := .br (by simp)
  -- What a round does after the test: the body, the update and the jump back.
  let round : Node := .block none
    (.block (some (scope.label .next)) [b] :: (u.toList ++ [.br (scope.label .head)]))
  have hround : round.Typed Γ (scope.label .head :: scope.label .exit :: labels) .none := by
    refine .sequence (.of_forall fun n hn => ?_)
    rcases List.mem_cons.1 hn with rfl | hn
    · exact hbody
    · rcases List.mem_append.1 hn with hn | hn
      · exact hu n (Option.mem_toList.1 hn)
      · obtain rfl := List.mem_singleton.1 hn
        exact hagain
  refine .block (label_not_mem [] hfresh (by simp))
    (.concat (fun n hn => hi n (Option.mem_toList.1 hn))
      (.loop (label_not_mem [.exit] hfresh (by simp)) ?_))
  -- A loop without a test goes on until it is left.
  cases c with
  | none => exact hround
  | some c => exact .ifThen (hc c rfl) hround

end

/-! ## Switches -/

/-- The nest of blocks of a switch is typed: each clause is inside the labels of the clauses after
    it, and the dispatch inside the labels of all of them. -/
theorem nest_typed {cases : List Case} {entry : List Node}
    (hnodup : (cases.map Case.label).Nodup) (hfresh : ∀ c ∈ cases, c.label ∉ labels)
    (hentry : ∀ n ∈ entry, n.Typed Γ (cases.map Case.label ++ labels) .none)
    (hbodies : ∀ c ∈ cases, ∀ ls, ls ⊆ cases.map Case.label →
      ∀ n ∈ c.body, n.Typed Γ (ls ++ labels) .none) :
    ∀ n ∈ nest entry cases, n.Typed Γ labels .none := by
  -- The first clause is innermost, so it becomes a part of the entry to the others.
  induction cases generalizing entry with
  | nil => exact hentry
  | cons c cs ih =>
    obtain ⟨hlabel, hnodup⟩ := List.nodup_cons.1 hnodup
    obtain ⟨hc, hcs⟩ := List.forall_mem_cons.1 hfresh
    refine ih hnodup hcs ?_ fun c' hc' ls hls => ?_
    · refine List.forall_mem_cons.2 ⟨.block (fun hmem => ?_) (.of_forall hentry), ?_⟩
      · exact (List.mem_append.1 hmem).elim hlabel hc
      · exact hbodies c List.mem_cons_self _ (List.subset_cons_self _ _)
    · exact hbodies c' (List.mem_cons_of_mem _ hc') ls
        (List.Subset.trans hls (List.subset_cons_self _ _))

/-- The search for the first guard that matches yields its number. -/
private theorem selectNode_typed {condition : Nat} {slot : Slot}
    (hlocal : Γ.locals[condition]? = some slot) (hslot : slot ≠ .none) {guards : List Node}
    (hguards : ∀ g ∈ guards, g.Typed Γ labels slot) {position : Nat} {n : Node}
    (h : selectNode condition slot position guards = .ok n) : n.Typed Γ labels .i32 := by
  induction guards generalizing position n with
  | nil =>
    cases h
    exact Node.typed_i32Const
  | cons g gs ih =>
    obtain ⟨hg, hgs⟩ := List.forall_mem_cons.1 hguards
    obtain ⟨rest, hrest, -, rfl⟩ := selectNode_cons h
    exact .select Node.typed_i32Const (ih hgs hrest)
      (.binary (o := .eq) (by simpa [Code.BinaryOp.accepts]) (.localGet hlocal) hg)

/-- The number of a discriminant and the type in which it is compared. -/
theorem compileDiscriminant_typed {ctx : Context} (hctx : ctx.Fits Γ) (d : Expr) :
    let r := (compileDiscriminant ctx d).value
    r.1.Typed Γ labels (r.2.slot ctx.width) := by
  simp only [compileDiscriminant, Reported.value_bind, convertExplicit_value, Reported.value_pure]
  exact coerce_typed (compile_typed hctx d .void)

/-- A discriminant is compared as a number. -/
theorem compileDiscriminant_isVoid (ctx : Context) (d : Expr) :
    (compileDiscriminant ctx d).value.2.isVoid = false := by
  simp only [compileDiscriminant, Reported.value_bind, Reported.value_pure]
  unfold discriminantType
  split <;> rfl

/-- A guard is compared in the slot of the discriminant. -/
private theorem compileGuard_typed {ctx : Context} (hctx : ctx.Fits Γ) (compared : Ty) (e : Expr) :
    (compileGuard ctx compared e).value.Typed Γ labels (compared.slot ctx.width) := by
  simp only [compileGuard, Reported.value_bind, convertExplicit_value]
  exact coerce_typed (compile_typed hctx e compared)

/-- A switch over typed clauses is typed. -/
private theorem dispatchNode_typed {scope : LabelScope} {condition : Nat} {slot : Slot}
    {value n : Node} {cases : List Case} (hfresh : ∀ l ∈ labels, l.scope ≠ scope.id)
    (hnodup : (cases.map Case.label).Nodup)
    (hlabels : ∀ c ∈ cases, (∃ k, c.label = scope.label (.clause k)) ∨
      c.label = scope.label .fallback)
    (hlocal : Γ.locals[condition]? = some slot) (hslot : slot ≠ .none)
    (hvalue : ∀ labels, value.Typed Γ labels slot)
    (hguards : ∀ c ∈ cases, ∀ g ∈ c.guard, ∀ labels, g.Typed Γ labels slot)
    (hbodies : ∀ c ∈ cases, ∀ ls, ls ⊆ cases.map Case.label →
      ∀ n ∈ c.body, n.Typed Γ (ls ++ scope.label .exit :: labels) .none)
    (h : dispatchNode scope condition slot value cases = .ok n) : n.Typed Γ labels .none := by
  obtain ⟨index, hindex, rfl⟩ := dispatchNode_eq_ok h
  -- What the table holds comes from a clause.
  have hguarded : ∀ p ∈ guardedCases cases, ∃ c ∈ cases, p.1 = c.label ∧ p.2 ∈ c.guard := by
    intro p hp
    obtain ⟨c, hc, heq⟩ := List.mem_filterMap.1 hp
    obtain ⟨g, hg, rfl⟩ := Option.map_eq_some_iff.1 heq
    exact ⟨c, hc, rfl, hg⟩
  refine .block (label_not_mem [] hfresh (by simp))
    (.of_forall (nest_typed hnodup (fun c hc => ?_) ?_ hbodies))
  · -- The labels of the clauses differ from the exit of the switch, and from labels outside.
    rcases hlabels c hc with ⟨k, heq⟩ | heq <;> rw [heq]
    · exact label_not_mem [.exit] hfresh (by simp)
    · exact label_not_mem [.exit] hfresh (by simp)
  · have hindex_typed :
        index.Typed Γ (cases.map Case.label ++ scope.label .exit :: labels) .i32 := by
      refine selectNode_typed hlocal hslot (fun g hg => ?_) hindex
      obtain ⟨p, hp, rfl⟩ := List.mem_map.1 hg
      obtain ⟨c, hc, -, hguard⟩ := hguarded p hp
      exact hguards c hc _ hguard _
    refine List.forall_mem_cons.2 ⟨.localSet hlocal (hvalue _), List.forall_mem_singleton.2
      (.brTable (fun l hl => ?_) ?_ hindex_typed)⟩
    · obtain ⟨p, hp, rfl⟩ := List.mem_map.1 hl
      obtain ⟨c, hc, heq, -⟩ := hguarded p hp
      exact List.mem_append_left _ (heq ▸ List.mem_map_of_mem hc)
    · -- The fallback is the label of the default clause, or else the exit of the switch.
      unfold fallbackLabel
      split
      next hany =>
        obtain ⟨c, hc, hkind⟩ := List.any_eq_true.1 hany
        rcases hlabels c hc with ⟨k, heq⟩ | heq
        · simp [heq, LabelScope.label] at hkind
        · exact List.mem_append_left _ (heq ▸ List.mem_map_of_mem hc)
      next => exact List.mem_append_right _ List.mem_cons_self

/-! ## Statements -/

/-- Nodes that may be missing do nothing where they are. -/
private theorem getD_typed {o : Option Node} (h : ∀ n ∈ o, n.Typed Γ labels .none) :
    (o.getD .nop).Typed Γ labels .none := by
  cases o with
  | none => exact .nop
  | some n => exact h n rfl

mutual

/-- A lowered statement is typed inside labels that cover it. -/
theorem lower_typed (hfc : fc.Fits Γ) : (s : Stmt) → ∀ {labels : List Label} {st st' : State}
    {n : Node}, lower fc s st = .ok n st' → st.WellBound fc.settings.width → st'.LocalsOf Γ →
    Covers labels st.labels.scopes st.labels.next st'.labels.next → n.Typed Γ labels .none
  | .exprStmt _ e, labels, st, st', n, h, hbound, hlocals, hcover => by
    obtain ⟨rfl, rfl⟩ := lower_exprStmt h
    exact compileDiscarded_typed (State.LocalsOf.fits hlocals hfc hbound) e
  | .varDecl _ kind ds, labels, st, st', n, h, hbound, hlocals, hcover => by
    obtain ⟨sets, hsets, rfl⟩ := lower_varDecl h
    exact sequence_typed (lowerDeclarators_typed hfc hbound hlocals hsets)
  | .returnStmt _ value, labels, st, st', n, h, hbound, hlocals, hcover =>
    lower_return_typed hfc hbound hlocals h
  | .ifStmt _ c t e, labels, st, st', n, h, hbound, hlocals, hcover => by
    obtain ⟨tn, st₁, en, ht, he, rfl⟩ := lower_if h
    -- The locals of the whole function start with those that each part sees.
    have hadv := (State.Advances.noting _).trans (lower_advances t ht)
    have hlocals₁ := hlocals.of_advances (lowerOption_advances e he)
    have htest : (compileCondition (fc.context st) c).value.Typed Γ labels .i32 :=
      compileCondition_typed ((hlocals₁.of_advances hadv).fits hfc hbound) c
    have hthen : tn.Typed Γ labels .none :=
      lower_typed hfc t ht hbound hlocals₁
        (hcover.mono (Nat.le_refl _) (lowerOption_advances e he).next)
    have helse := lowerOption_typed hfc e he (hadv.wellBound hbound) hlocals (hcover.rest hadv)
    cases en with
    | none => exact .ifThen htest hthen
    | some en => exact .ifElse htest hthen (helse en rfl)
  | .forStmt _ init c u body, labels, st, st', n, h, hbound, hlocals, hcover => by
    obtain ⟨i, st₁, bn, st₂, hinit, hbody, -, rfl, rfl⟩ := lower_for h
    have hadv₁ := lowerOption_advances init hinit
    have hadv₂ := lowerOption_advances body hbody
    have hbound₁ := hadv₁.wellBound hbound.opened
    have hlocals₂ : st₂.LocalsOf Γ := hlocals
    have hentered : (st₁.entered .loop).LocalsOf Γ := hlocals₂.of_advances hadv₂
    have hlocals₁ : st₁.LocalsOf Γ := hentered
    have hctx := hlocals₂.fits hfc (hadv₂.wellBound hbound₁)
    -- The initialiser is lowered before the scope is opened, but stands inside the loop's exit.
    have houter : Covers labels st₁.labels.scopes st₁.labels.next st₂.labels.next :=
      hcover.rest hadv₁
    have hinit_cover : Covers ((st₁.nextScope .loop).label .exit :: labels) st.labels.scopes
        st.labels.next st₁.labels.next :=
      (hcover.mono (Nat.le_refl _) (Nat.le_of_lt hadv₂.next)).append
        [(st₁.nextScope .loop).label .exit]
        (by simp [LabelScope.label, State.nextScope])
    have hinner := houter.enter (st₁.nextScope .loop)
      [(st₁.nextScope .loop).label .next, (st₁.nextScope .loop).label .head,
        (st₁.nextScope .loop).label .exit] rfl
      (by simp [LabelScope.label, State.nextScope]) (by simp) (by simp)
    refine forNode_typed (houter.scope_ne hadv₂.next)
      (lowerOption_typed hfc init hinit hbound.opened hlocals₁ hinit_cover)
      (fun n hn => ?_) (fun n hn => ?_)
      (getD_typed (lowerOption_typed hfc body hbody hbound₁ hlocals hinner))
    · cases c with
      | none => cases hn
      | some c => cases hn; exact compileCondition_typed hctx c
    · cases u with
      | none => cases hn
      | some u => cases hn; exact compileDiscarded_typed hctx u
  | .whileStmt _ c body, labels, st, st', n, h, hbound, hlocals, hcover => by
    obtain ⟨bn, st₁, hbody, rfl, rfl⟩ := lower_while h
    have hadv := lowerOption_advances body hbody
    have hctx := State.LocalsOf.fits hlocals hfc (hadv.wellBound hbound)
    have hinner := hcover.enter (st.nextScope .loop)
      [(st.nextScope .loop).label .next, (st.nextScope .loop).label .exit] rfl
      (by simp [LabelScope.label, State.nextScope]) (by simp) (by simp)
    exact whileNode_typed (hcover.scope_ne hadv.next) (compileCondition_typed hctx c)
      (getD_typed (lowerOption_typed hfc body hbody hbound hlocals hinner))
  | .doWhile _ body c, labels, st, st', n, h, hbound, hlocals, hcover => by
    obtain ⟨bn, st₁, hbody, rfl, rfl⟩ := lower_doWhile h
    have hadv := lower_advances body hbody
    have hctx := State.LocalsOf.fits hlocals hfc (hadv.wellBound hbound)
    have hinner := hcover.enter (st.nextScope .loop)
      [(st.nextScope .loop).label .next, (st.nextScope .loop).label .head,
        (st.nextScope .loop).label .exit] rfl
      (by simp [LabelScope.label, State.nextScope]) (by simp) (by simp)
    exact doWhileNode_typed (hcover.scope_ne hadv.next) (compileCondition_typed hctx c)
      (lower_typed hfc body hbody hbound hlocals hinner)
  | .block _ ss, labels, st, st', n, h, hbound, hlocals, hcover => by
    obtain ⟨nodes, st₁, hnodes, rfl, rfl⟩ := lower_block h
    exact .sequence (.of_forall (lowerAll_typed hfc ss hnodes hbound.opened hlocals hcover))
  | .breakStmt _, labels, st, st', n, h, hbound, hlocals, hcover => by
    obtain ⟨label, htarget, rfl, rfl⟩ := lower_break h
    exact .br (hcover.mem_of_breakTarget htarget)
  | .continueStmt _, labels, st, st', n, h, hbound, hlocals, hcover => by
    obtain ⟨label, htarget, rfl, rfl⟩ := lower_continue h
    exact .br (hcover.mem_of_continueTarget htarget)
  | .switchStmt _ d [], labels, st, st', n, h, hbound, hlocals, hcover => by
    obtain ⟨rfl, rfl⟩ := lower_switch_nil h
    exact compileDropped_typed (State.LocalsOf.fits hlocals hfc hbound) d .void
  | .switchStmt _ d (clause :: clauses), labels, st, st', n, h, hbound, hlocals, hcover => by
    obtain ⟨cases, st₁, hclauses, hdispatch, rfl⟩ := lower_switch (by simp) h
    have hadv := lowerClauses_advances (clause :: clauses) hclauses
    -- The local of the discriminant comes before those that the clauses declare.
    have hlocals₂ : st₁.LocalsOf Γ := hlocals
    have hlocals₁ := hlocals₂.of_advances hadv
    have hlocals₀ : st.LocalsOf Γ := ((List.prefix_append _ _).map _).trans hlocals₁
    have hctx := hlocals₀.fits hfc hbound
    obtain ⟨hlabels_nodup, hlabels⟩ := lowerClauses_labels hclauses
    have hcases := lowerClauses_typed hfc (clause :: clauses) hclauses (hbound.switched d) hlocals
    refine dispatchNode_typed (hcover.scope_ne hadv.next) hlabels_nodup (fun c hc => ?_)
      (hlocals₁.getElem? ?_) (Ty.slot_ne_none (compileDiscriminant_isVoid _ d))
      (fun labels => compileDiscriminant_typed hctx d) (fun c hc => (hcases c hc).1)
      (fun c hc ls hls => ?_) hdispatch
    · rcases hlabels c hc with ⟨k, -, heq⟩ | ⟨-, heq⟩
      · exact .inl ⟨k, heq⟩
      · exact .inr heq
    · -- The discriminant is kept in the local that was declared last.
      exact st.slot_declared _ _
    · -- The body of a clause is inside the exit and the labels of later clauses.
      have hinner := hcover.enter (st.nextScope .switch)
        (ls ++ [(st.nextScope .switch).label .exit]) rfl (fun l hl => ?_) (by simp)
        (fun hkind => by cases hkind)
      · rw [List.append_assoc] at hinner
        exact (hcases c hc).2 _ hinner
      · rcases List.mem_append.1 hl with hl | hl
        · obtain ⟨c', hc', rfl⟩ := List.mem_map.1 (hls hl)
          exact (lowerClauses_own_labels hclauses c' hc').1
        · obtain rfl := List.mem_singleton.1 hl
          rfl
  | .empty _, labels, st, st', n, h, hbound, hlocals, hcover => by
    obtain ⟨rfl, -⟩ := lower_empty h
    exact .nop
termination_by structural s => s

private theorem lowerOption_typed (hfc : fc.Fits Γ) : (s : Option Stmt) → ∀ {labels : List Label}
    {st st' : State} {o : Option Node}, lowerOption fc s st = .ok o st' →
    st.WellBound fc.settings.width → st'.LocalsOf Γ →
    Covers labels st.labels.scopes st.labels.next st'.labels.next →
    ∀ n ∈ o, n.Typed Γ labels .none
  | none, labels, st, st', o, h, hbound, hlocals, hcover => by
    obtain ⟨rfl, -⟩ := lowerOption_none h
    simp
  | some s, labels, st, st', o, h, hbound, hlocals, hcover => by
    obtain ⟨node, hnode, rfl⟩ := lowerOption_some h
    intro n hn
    cases hn
    exact lower_typed hfc s hnode hbound hlocals hcover
termination_by structural s => s

theorem lowerAll_typed (hfc : fc.Fits Γ) : (ss : List Stmt) → ∀ {labels : List Label}
    {st st' : State} {ns : List Node}, lowerAll fc ss st = .ok ns st' →
    st.WellBound fc.settings.width → st'.LocalsOf Γ →
    Covers labels st.labels.scopes st.labels.next st'.labels.next →
    ∀ n ∈ ns, n.Typed Γ labels .none
  | [], labels, st, st', ns, h, hbound, hlocals, hcover => by
    obtain ⟨rfl, -⟩ := lowerAll_nil h
    simp
  | s :: ss, labels, st, st', ns, h, hbound, hlocals, hcover => by
    obtain ⟨node, st₁, nodes, hnode, hnodes, rfl⟩ := lowerAll_cons h
    have hadv := lower_advances s hnode
    -- The first statement takes its ids before the others take theirs.
    have hadv' := lowerAll_advances ss hnodes
    refine List.forall_mem_cons.2 ⟨?_, ?_⟩
    · exact lower_typed hfc s hnode hbound (hlocals.of_advances hadv')
        (hcover.mono (Nat.le_refl _) hadv'.next)
    · exact lowerAll_typed hfc ss hnodes (hadv.wellBound hbound) hlocals (hcover.rest hadv)
termination_by structural ss => ss

/-- Guards have the slot of the discriminant, and bodies yield nothing under any labels that cover
    them. -/
theorem lowerClauses_typed (hfc : fc.Fits Γ) {scope : LabelScope} {compared : Ty} :
    (clauses : List Clause) → ∀ {ordinal : Nat} {hasDefault : Bool} {st st' : State}
    {cases : List Case},
    lowerClauses fc scope compared ordinal hasDefault clauses st = .ok cases st' →
    st.WellBound fc.settings.width → st'.LocalsOf Γ → ∀ c ∈ cases,
    (∀ g ∈ c.guard, ∀ labels, g.Typed Γ labels (compared.slot fc.settings.width)) ∧
    ∀ labels, Covers labels st.labels.scopes st.labels.next st'.labels.next →
      ∀ n ∈ c.body, n.Typed Γ labels .none
  | [], ordinal, hasDefault, st, st', cases, h, hbound, hlocals => by
    obtain ⟨rfl, -⟩ := lowerClauses_nil h
    simp
  | .mk test body span :: clauses, ordinal, hasDefault, st, st', cases, h, hbound, hlocals => by
    obtain ⟨r, st₁, nodes, st₂, rest, htest, hbody, hrest, rfl⟩ := lowerClauses_cons h
    have hadv₁ := lowerTest_advances htest
    have hadv₂ := lowerAll_advances body hbody
    have hadv₃ := lowerClauses_advances clauses hrest
    have hbound₁ := hadv₁.wellBound hbound
    have hlocals₂ := hlocals.of_advances hadv₃
    refine List.forall_mem_cons.2 ⟨⟨fun g hg labels => ?_, fun labels hcover => ?_⟩, ?_⟩
    -- Only a clause with a test has a guard.
    · rcases lowerTest_eq_ok htest with ⟨e, -, rfl, rfl⟩ | ⟨-, -, rfl, -⟩ | ⟨-, -, rfl, -⟩
      · cases hg
        exact compileGuard_typed ((hlocals₂.of_advances hadv₂).fits hfc hbound₁) compared e
      · cases hg
      · cases hg
    · exact lowerAll_typed hfc body hbody hbound₁ hlocals₂
        ((hcover.rest hadv₁).mono (Nat.le_refl _) hadv₃.next)
    · intro c hc
      have hlater := lowerClauses_typed hfc clauses hrest (hadv₂.wellBound hbound₁) hlocals c hc
      exact ⟨hlater.1, fun labels hcover => hlater.2 labels (hcover.rest (hadv₁.trans hadv₂))⟩
termination_by structural clauses => clauses

end

end Weir.Lowering
