import Weir.Proofs.AlikeLowering
import Weir.Proofs.Branches
import Weir.Proofs.Dispatch
import Weir.Proofs.LocalOwners
import Weir.Proofs.StatementTyping
import Weir.Proofs.TypedRun

/-!
# Dispatch of switches

A switch evaluates its discriminant and then its guards, the last one first, and compares them only
when all of them are there. This is true of every switch that is lowered, whatever is reported on
the way: what the guards and the bodies of clauses are lowered to does not depend on reports. The
local of the switch keeps the discriminant, as no guard can name it, and the bodies of the clauses
run one after the other, as none of them branches to a clause.

## Main definitions

- `clauseBodies`: the bodies of clauses as they are lowered
- `guardValues`, `comparands`: what a switch evaluates before it goes on
- `selected`: the clause that it goes on with

## Key results

- `choose_eq`: the guards that are evaluated are compared with the discriminant
- `evalAll_nest`: a nest runs its entry and then the bodies of its clauses
- `evalNode_switch`: switches as a whole
-/

namespace Weir.Lowering

open Weir.Code (Label LabelKind Node Slot TypeContext Value)
open Weir.Machine
open Weir.Machine.Run (catching condition getLocal setLocal value)
open Weir.Source (Clause Expr Span Stmt Ty)

/-! ## Lowering looks at no report -/

variable {fc : FunctionContext}

/-- The states differ in nothing but in what was reported. -/
structure State.Alike (st st₀ : State) : Prop where
  labels : st₀.labels = st.labels
  bindings : st₀.bindings = st.bindings
  locals : st₀.locals = st.locals

namespace State

variable {st st₀ : State}

theorem Alike.refl (st : State) : st.Alike st := ⟨rfl, rfl, rfl⟩

private theorem Alike.noting (h : st.Alike st₀) (ds : List Diagnostic) : (st.noting ds).Alike st₀ :=
  ⟨h.labels, h.bindings, h.locals⟩

/-- Expressions are compiled alike. -/
private theorem Alike.context (h : st.Alike st₀) : fc.context st₀ = fc.context st := by
  unfold FunctionContext.context
  rw [h.bindings]

/-- The state is one without reports, after what was reported in it. -/
private theorem Alike.eq_after (h : st.Alike st₀) :
    st₀ = State.after { st with reports := [] } st₀.reports := by
  obtain ⟨labels, bindings, locals, reports⟩ := st₀
  obtain ⟨rfl, rfl, rfl⟩ := h
  simp only [State.after, List.append_nil]

end State

/-- Statements are lowered to the same nodes in states that differ in their reports. -/
private theorem lowerAll_alike {ss : List Stmt} {st st₀ st' : State} {ns : List Node}
    (h : lowerAll fc ss st = .ok ns st') (hst : st.Alike st₀) :
    ∃ st₀', lowerAll fc ss st₀ = .ok ns st₀' ∧ st'.Alike st₀' := by
  have hfc : fc.Parallels True fc := ⟨rfl, fun _ => rfl, rfl, rfl⟩
  -- Both are lowered as in the state without reports.
  have hrun := lowerAll_parallels hfc ss st.reports { st with reports := [] }
  have hrun₀ := lowerAll_parallels hfc ss st₀.reports { st with reports := [] }
  rw [← (State.Alike.refl st).eq_after, h] at hrun
  rw [← hst.eq_after] at hrun₀
  generalize lowerAll fc ss { st with reports := [] } = bare at hrun hrun₀
  cases hrun with
  | @ok a _ bareSt _ _ _ hequal =>
    obtain rfl := hequal trivial (.inl trivial)
    generalize lowerAll fc ss st₀ = r at hrun₀
    cases hrun₀ with
    | ok _ _ hequal₀ =>
      obtain rfl := hequal₀ trivial (.inl trivial)
      exact ⟨_, rfl, rfl, rfl, rfl⟩

/-- The bodies of clauses as they are lowered. -/
def clauseBodies (fc : FunctionContext) : List Clause → State → List (List Node)
  | [], _ => []
  | .mk _ body _ :: clauses, st =>
    (lowerAll fc body).resultD [] st :: clauseBodies fc clauses ((lowerAll fc body).after st)

/-- The guards and the bodies of lowered clauses, also where clauses are reported. -/
private theorem lowerClauses_parts {scope : LabelScope} {compared : Ty} {clauses : List Clause}
    {ordinal : Nat} {hasDefault : Bool} {st st₀ st' : State} {cases : List Case}
    (h : lowerClauses fc scope compared ordinal hasDefault clauses st = .ok cases st')
    (hst : st.Alike st₀) :
    cases.map Case.guard = clauseTests fc compared clauses st₀ ∧
      cases.map Case.body = clauseBodies fc clauses st₀ := by
  induction clauses generalizing ordinal hasDefault st st₀ cases with
  | nil =>
    obtain ⟨rfl, -⟩ := lowerClauses_nil h
    exact ⟨rfl, rfl⟩
  | cons clause clauses ih =>
    obtain ⟨test, body, span⟩ := clause
    obtain ⟨r, st₁, nodes, st₂, rest, htest, hbody, hrest, rfl⟩ := lowerClauses_cons h
    -- The test changes nothing but the reports, so the body is lowered as if there were none.
    have hclause : st₁.Alike st₀ ∧
        r.2 = test.map fun e => (compileGuard (fc.context st₀) compared e).value := by
      rw [hst.context]
      rcases lowerTest_eq_ok htest with
        ⟨e, rfl, rfl, rfl⟩ | ⟨rfl, -, rfl, rfl⟩ | ⟨rfl, -, rfl, d, rfl⟩
      · exact ⟨hst.noting _, rfl⟩
      · exact ⟨hst, rfl⟩
      · exact ⟨hst.noting _, rfl⟩
    obtain ⟨st₃, hbody₀, hst₂⟩ := lowerAll_alike hbody hclause.1
    obtain ⟨htests, hbodies⟩ := ih hrest hst₂
    simp only [List.map_cons, clauseTests, clauseBodies, Lower.after_of_ok hbody₀,
      Lower.resultD_of_ok hbody₀, htests, hbodies, hclause.2, and_self]

/-! ## Guards -/

/-- No variable in scope has the given local. -/
def State.Spares (st : State) (i : Nat) : Prop :=
  ∀ scope ∈ st.bindings, ∀ name v, (name, v) ∈ scope → v.index ≠ i

namespace State

variable {st st' : State} {i : Nat}

/-- Variables that come into scope have later locals. -/
private theorem Spares.of_advances {w : Source.PointerWidth} (h : st.Spares i)
    (hi : i < st.locals.length) (hadv : st.Advances w st') : st'.Spares i := by
  intro scope hscope name v hv
  rcases hadv.newcomers scope hscope name v hv with ⟨scope₀, hscope₀, hv₀⟩ | hnew
  · exact h scope₀ hscope₀ name v hv₀
  · omega

/-- No name stands for the local. -/
private theorem Spares.not_names (h : st.Spares i) : ¬ (fc.context st).Names i := by
  rintro ⟨name, v, hfind, hindex⟩
  obtain ⟨scope, hscope, hlookup⟩ := List.exists_of_findSome?_eq_some hfind
  obtain ⟨pre, post, heq, -⟩ := List.lookup_eq_some_iff.1 hlookup
  exact h scope hscope name v (by simp [heq]) hindex

/-- The local of a switch is none of a variable. -/
private theorem WellBound.spares (h : st.WellBound fc.settings.width) (d : Expr) :
    (st.switched fc d).Spares st.locals.length := by
  intro scope hscope name v hv
  -- The scope of the clauses is empty at first.
  rcases List.mem_cons.1 hscope with rfl | hscope
  · cases hv
  · obtain ⟨l, hl, -⟩ := Option.map_eq_some_iff.1 (h scope hscope name v hv)
    exact Nat.ne_of_lt (List.getElem?_eq_some_iff.1 hl).1

end State

variable {σ : Type} {call : Nat → List Value → Run σ (Option Value)} {clock : Nat}

/-- Guards leave a local that no variable has as it is. -/
private theorem lowerClauses_guards_keep (hcall : CallsKeepLocals call) {i : Nat}
    {scope : LabelScope}
    {compared : Ty} {clauses : List Clause} {ordinal : Nat} {hasDefault : Bool} {st st' : State}
    {cases : List Case}
    (h : lowerClauses fc scope compared ordinal hasDefault clauses st = .ok cases st')
    (hspares : st.Spares i) (hi : i < st.locals.length) :
    ∀ c ∈ cases, ∀ g ∈ c.guard, ∀ v,
      KeepsLocals (fun vs => vs[i]? = some v) (evalNode call clock g) := by
  induction clauses generalizing ordinal hasDefault st cases with
  | nil =>
    obtain ⟨rfl, -⟩ := lowerClauses_nil h
    exact fun c hc => by cases hc
  | cons clause clauses ih =>
    obtain ⟨test, body, span⟩ := clause
    obtain ⟨r, st₁, nodes, st₂, rest, htest, hbody, hrest, rfl⟩ := lowerClauses_cons h
    have hadv := (lowerTest_advances htest).trans (lowerAll_advances body hbody)
    have hlater := ih hrest (hspares.of_advances hi hadv)
      (Nat.lt_of_lt_of_le hi hadv.locals.length_le)
    refine List.forall_mem_cons.2 ⟨fun g hg v => ?_, hlater⟩
    rcases lowerTest_eq_ok htest with ⟨e, -, rfl, -⟩ | ⟨-, -, rfl, -⟩ | ⟨-, -, rfl, -⟩
    · cases hg
      refine Expressive.compileGuard (expressive_keeps hcall fun vs index w hvs hnames => ?_) _ e
      -- The write is to another local.
      have hne : index ≠ i := fun heq => hspares.not_names (heq ▸ hnames)
      rw [List.getElem?_set_ne hne, hvs]
    · cases hg
    · cases hg

/-! ## Comparisons -/

/-- The values of guards. All guards are evaluated, the last one first; a default clause has
    none. -/
def guardValues (run : Node → Run σ (Option Value)) :
    List (Option Node) → Run σ (List (Option Value))
  | [] => pure []
  | none :: tests => do
    let vs ← guardValues run tests
    pure (none :: vs)
  | some guard :: tests => do
    let vs ← guardValues run tests
    let w ← value (run guard)
    pure (some w :: vs)

/-- The discriminant of a switch, which is kept in its local, and the values of its guards. -/
def comparands (run : Node → Run σ (Option Value)) (index : Nat) (discriminant : Node)
    (tests : List (Option Node)) : Run σ (Value × List (Option Value)) := do
  let v ← value (run discriminant)
  setLocal index v
  let vs ← guardValues run tests
  pure (v, vs)

/-- The number of the first clause whose guard has the value of the discriminant, or else of the
    first default clause. -/
def selected (v : Value) (vs : List (Option Value)) : Option Nat :=
  (vs.findIdx? (· = some v)).or (vs.findIdx? Option.isNone)

/-- Runs the bodies of clauses one after the other from the given clause on, in the block of the
    switch. Without a clause there is nothing to run. -/
def runFrom (run : Node → Run σ (Option Value)) (exit : Label) (bodies : List (List Node)) :
    Option Nat → Run σ (Option Value)
  | none => pure none
  | some k => run (.block (some exit) (bodies.drop k).flatten)

/-- A default clause is selected only if it is the first one. -/
private theorem selected_ne_later_default {v : Value} {vs : List (Option Value)} {j k : Nat}
    (hjk : j < k)
    (hj : vs[j]? = some none) (hk : vs[k]? = some none) : selected v vs ≠ some k := by
  intro hselected
  rcases Option.or_eq_some_iff.1 hselected with hguard | ⟨-, hdefault⟩
  · -- A clause that is selected by its guard is no default clause.
    obtain ⟨hlt, hmatch, -⟩ := List.findIdx?_eq_some_iff_getElem.1 hguard
    rw [List.getElem?_eq_getElem hlt, Option.some.injEq] at hk
    simp [hk] at hmatch
  · obtain ⟨hlt, -, hbefore⟩ := List.findIdx?_eq_some_iff_getElem.1 hdefault
    have hno := hbefore j hjk
    rw [List.getElem?_eq_getElem (Nat.lt_trans hjk hlt), Option.some.injEq] at hj
    simp [hj] at hno

/-- Integers of one slot are compared by their values. -/
private theorem eval_eq_of_slot {v w : Value} (hv : v.slot.isInteger) (hw : w.slot = v.slot) :
    Code.BinaryOp.eq.eval v w = .ok (.ofBool (decide (some w = some v))) := by
  have hequal {n : Nat} (a b : BitVec n) : (a == b) = decide (b = a) := by
    rw [Bool.eq_iff_iff, beq_iff_eq, decide_eq_true_iff, eq_comm]
  cases v <;> cases hv <;> cases w <;> cases hw
  all_goals simp only [Code.BinaryOp.eval, Code.BinaryOp.onInts, hequal, Option.some.injEq,
    Value.i32.injEq, Value.i64.injEq]

section

variable {run : Node → Run σ (Option Value)} {I : Machine.State σ → Prop} {E : Exit → Prop}
  {tests : List (Option Node)} {slot : Slot}

/-- Exactly the default clauses have no value. -/
private theorem keeps_guardValues
    (hguards : ∀ g, some g ∈ tests → Keeps I (value (run g)) (fun w => w.slot = slot) E) :
    Keeps I (guardValues run tests) (fun vs => vs.map Option.isSome = tests.map Option.isSome)
      E := by
  induction tests with
  | nil => exact keeps_pure rfl
  | cons test tests ih =>
    have hrest := ih fun g hg => hguards g (List.mem_cons_of_mem _ hg)
    cases test with
    | none => exact hrest.bind fun vs hvs => keeps_pure (by simp [hvs])
    | some g =>
      refine hrest.bind fun vs hvs => (hguards g List.mem_cons_self).bind fun w _ => ?_
      exact keeps_pure (by simp [hvs])

/-- The guards are compared as they are evaluated. It makes no difference if they are all evaluated
    first, since the local of the switch keeps the discriminant in the meantime. -/
theorem choose_eq {index : Nat} {v : Value} (hv : v.slot.isInteger)
    (hlocal : ∀ s, I s → s.locals[index]? = some v)
    (hguards : ∀ g, some g ∈ tests → Keeps I (value (run g)) (fun w => w.slot = v.slot) E)
    {s : Machine.State σ} (hs : I s) :
    choose run index tests s = (do
      let vs ← guardValues run tests
      pure (vs.findIdx? (· = some v))) s := by
  induction tests generalizing s with
  | nil => rfl
  | cons test tests ih =>
    have hlater : ∀ g, some g ∈ tests → Keeps I (value (run g)) (fun w => w.slot = v.slot) E :=
      fun g hg => hguards g (List.mem_cons_of_mem _ hg)
    -- The later tests choose among the later values, whatever is done with the choice.
    have hrest {β : Type} (f : Option Nat → Run σ β) : (choose run index tests >>= f) s =
        (guardValues run tests >>= fun vs => f (vs.findIdx? (· = some v))) s := by
      rw [Run.bind_apply, ih hlater hs, Run.bind_apply, Run.bind_apply]
      cases guardValues run tests s <;> rfl
    cases test with
    | none =>
      rw [choose, hrest]
      simp [guardValues, List.findIdx?_cons]
    | some g =>
      rw [choose, hrest, guardValues]
      simp only [bind_assoc, pure_bind]
      refine (keeps_guardValues hlater).bind_congr (fun vs s' _ hs' => ?_) hs
      -- The local is read before the guard is evaluated, and still has the discriminant.
      have hget : (getLocal index : Run σ Value) s' = .ok v s' := by
        simp only [getLocal, hlocal s' hs']
      rw [Run.bind_apply, hget]
      refine (hguards g List.mem_cons_self).bind_congr (fun w s'' hw hs'' => ?_) hs'
      -- The comparison yields a truth value, which is tested at once.
      have htruth (b : Bool) :
          condition (pure (some (Value.ofBool b)) : Run σ (Option Value)) = pure b := by
        cases b <;> rfl
      rw [eval_eq_of_slot hv hw]
      simp only [Run.ofExcept, pure_bind, htruth, List.findIdx?_cons]

end

/-! ## Nests -/

/-- A nest whose parts branch to none of its clauses runs them one after the other. -/
theorem evalAll_nest {bad : Label → Prop} (hcall : CallsKeepLocals call) {cases : List Case}
    {entry : List Node} (hlabels : ∀ c ∈ cases, bad c.label) (hentry : Code.AllAvoid bad entry)
    (hbodies : ∀ c ∈ cases, Code.AllAvoid bad c.body) :
    evalAll call clock none (nest entry cases) =
      evalAll call clock none (entry ++ cases.flatMap Case.body) := by
  induction cases generalizing entry with
  | nil => simp
  | cons c cs ih =>
    obtain ⟨hlabel, hlabels⟩ := List.forall_mem_cons.1 hlabels
    obtain ⟨hbody, hbodies⟩ := List.forall_mem_cons.1 hbodies
    have hrun : Avoids bad (evalAll call clock none entry) :=
      keeps_of_allAvoid hcall none entry hentry
    have hfirst : Code.AllAvoid bad (.block (some c.label) entry :: c.body) := ⟨hentry, hbody⟩
    -- The block of the first clause becomes a part of the entry.
    rw [nest_cons, ih hlabels hfirst hbodies, evalAll_append, evalAll_clause,
      catching_of_avoids hrun hlabel, ← evalAll_append, ← evalAll_append, List.flatMap_cons,
      List.append_assoc]

/-- A switch that branches to a label runs the bodies from the clause on that the label leads to. -/
private theorem catching_nest {bad : Label → Prop} (hcall : CallsKeepLocals call)
    {scope : LabelScope} {cases : List Case} {entry : List Node} {label : Label} {k : Option Nat}
    {s s' : Machine.State σ} (hleads : LeadsTo scope cases label k)
    (hnodup : (cases.map Case.label).Nodup) (hkinds : ∀ c ∈ cases, c.label.kind ≠ .exit)
    (hlabels : ∀ c ∈ cases, bad c.label) (hbodies : ∀ c ∈ cases, Code.AllAvoid bad c.body)
    (hentry : evalAll call clock none entry s = .error (.branch label) s') :
    catching (scope.label .exit) (evalAll call clock none (nest entry cases)) s =
      runFrom (evalNode call clock) (scope.label .exit) (cases.map Case.body) k s' := by
  cases k with
  | none =>
    -- The branch goes through the nest to the block of the exit.
    obtain rfl := hleads
    refine Run.catching_of_branch (nest_of_error hentry fun c hc heq => ?_)
    have hlabel := Exit.branch.inj heq
    exact hkinds c hc (by rw [← hlabel]; rfl)
  | some k =>
    obtain ⟨c, hc, rfl⟩ := hleads
    obtain ⟨hlt, hget⟩ := List.getElem?_eq_some_iff.1 hc
    have hlater : ∀ c ∈ cases.drop (k + 1), c ∈ cases := fun c hc => List.mem_of_mem_drop hc
    -- From the clause that is chosen on, the bodies run one after the other.
    have hflatten : ((cases.map Case.body).drop k).flatten =
        c.body ++ (cases.drop (k + 1)).flatMap Case.body := by
      rw [← List.map_drop, List.drop_eq_getElem_cons hlt, hget, ← List.flatMap_def,
        List.flatMap_cons]
    simp only [runFrom, evalNode]
    refine Run.catching_congr ?_
    rw [nest_of_branch hnodup hc hentry, hflatten,
      evalAll_nest hcall (fun c hc => hlabels c (hlater c hc))
        (hbodies c (List.mem_of_getElem? ‹_›)) fun c hc => hbodies c (hlater c hc)]

/-! ## Switches -/

/-- A discriminant is compared as an integer. -/
private theorem compileDiscriminant_isInteger (ctx : Context) (d : Expr) :
    ((compileDiscriminant ctx d).value.2.slot ctx.width).isInteger := by
  simp only [compileDiscriminant, Reported.value_bind, Reported.value_pure]
  unfold discriminantType
  split <;> rfl

/-- Code of an expression yields a value of its slot and does not branch. -/
private theorem keeps_expression {Γ : TypeContext} {J : List Value → Prop} {n : Node} {slot : Slot}
    (hcall : CallsKeepSlots call Γ) (htyped : n.Typed Γ [] slot)
    (h : KeepsLocals J (evalNode call clock n)) :
    Keeps (fun s => HasSlots Γ.locals s ∧ J s.locals) (value (evalNode call clock n))
      (fun v => v.slot = slot) Exit.Unbranching := by
  have hslots : KeepsSlots Γ (evalNode call clock n) slot := keeps_of_typed hcall n htyped
  have hvalue : Keeps (HasSlots Γ.locals) (value (evalNode call clock n)) (fun v => v.slot = slot)
      (Exit.Fits Γ.result) := Keeps.value hslots rfl
  exact (hvalue.and h.value).mono (fun v hv => hv.1) fun e he => he.2

/-- The discriminant of a switch yields a value of the slot in which it is compared. -/
private theorem keeps_discriminant {Γ : TypeContext} {ctx : Context}
    (hcall : CallsKeepSlots call Γ) (hkeep : CallsKeepLocals call) (hctx : ctx.Fits Γ) (d : Expr) :
    Keeps (HasSlots Γ.locals) (value (evalNode call clock (compileDiscriminant ctx d).value.1))
      (fun v => v.slot = (compileDiscriminant ctx d).value.2.slot ctx.width) Exit.Unbranching := by
  have hkeeps : KeepsLocals (fun _ => True)
      (evalNode call clock (compileDiscriminant ctx d).value.1) :=
    Expressive.compileDiscriminant (expressive_keeps hkeep fun _ _ _ _ _ => trivial) d
  have hexpression := keeps_expression hcall (compileDiscriminant_typed hctx d) hkeeps
  simp only [and_true] at hexpression
  exact hexpression

/-- The guards of a switch yield values of the slot of its discriminant, which its local keeps in
    the meantime. -/
private theorem keeps_guards {Γ : TypeContext} (hfc : fc.Fits Γ) (hcall : CallsKeepSlots call Γ)
    (hkeep : CallsKeepLocals call) {st st' : State} {scope : LabelScope} {compared : Ty} {d : Expr}
    {clauses : List Clause} {cases : List Case} (hst : st.WellBound fc.settings.width)
    (h : lowerClauses fc scope compared 0 false clauses (st.switched fc d) = .ok cases st')
    (hlocals : st'.LocalsOf Γ) (v : Value) (g : Node) (hg : some g ∈ cases.map Case.guard) :
    Keeps (fun s => HasSlots Γ.locals s ∧ s.locals[st.locals.length]? = some v)
      (value (evalNode call clock g)) (fun w => w.slot = compared.slot fc.settings.width)
      Exit.Unbranching := by
  obtain ⟨c, hc, hguard⟩ := List.mem_map.1 hg
  have hlength : st.locals.length < (st.switched fc d).locals.length := by
    simp [State.switched, State.opened, State.declared, State.noting, State.entered]
  obtain ⟨htyped, -⟩ := lowerClauses_typed hfc clauses h (hst.switched d) hlocals c hc
  exact keeps_expression hcall (htyped g hguard [])
    (lowerClauses_guards_keep hkeep h (hst.spares d) hlength c hc g hguard v)

/-- A typed local is written. -/
private theorem setLocal_eq_ok {slots : List Slot} {index : Nat} {v : Value}
    {s : Machine.State σ} (hs : HasSlots slots s) (h : slots[index]? = some v.slot) :
    ∃ s', setLocal index v s = .ok () s' ∧ HasSlots slots s' ∧ s'.locals[index]? = some v := by
  cases hold : s.locals[index]? with
  | none => exact absurd hold (hs.ne_none h)
  | some old =>
    have hslot := hs.getElem? hold
    rw [h, Option.some.injEq] at hslot
    refine ⟨_, by simp only [setLocal, hold, if_pos hslot.symm], hs.set h, ?_⟩
    exact List.getElem?_set_self (List.getElem?_eq_some_iff.1 hold).1

/-- The clause that a dispatch chooses is the first one whose guard has the value of the
    discriminant. -/
private theorem dispatchRun_comparands {run : Node → Run σ (Option Value)} {slots : List Slot}
    {index : Nat} {discriminant : Node} {tests : List (Option Node)} {slot : Slot}
    (hslot : slot.isInteger) (hlocal : slots[index]? = some slot)
    (hvalue : Keeps (HasSlots slots) (value (run discriminant)) (fun v => v.slot = slot)
      Exit.Unbranching)
    (hguards : ∀ v g, some g ∈ tests →
      Keeps (fun s => HasSlots slots s ∧ s.locals[index]? = some v) (value (run g))
        (fun w => w.slot = slot) Exit.Unbranching)
    {s : Machine.State σ} (hs : HasSlots slots s) :
    match comparands run index discriminant tests s with
    | .ok (v, vs) s' =>
      dispatchRun run index discriminant tests s = .ok (vs.findIdx? (· = some v)) s' ∧
        vs.map Option.isSome = tests.map Option.isSome
    | .error e s' => dispatchRun run index discriminant tests s = .error e s' ∧ e.Unbranching := by
  unfold comparands dispatchRun
  rw [Run.bind_apply, Run.bind_apply]
  cases hd : value (run discriminant) s with
  | error e s₁ => exact ⟨rfl, (hvalue.of_error hs hd).2⟩
  | ok v s₁ =>
    obtain ⟨hs₁, rfl⟩ := hvalue.of_ok hs hd
    obtain ⟨s₂, hset, hs₂⟩ := setLocal_eq_ok hs₁ hlocal
    have hchoose := choose_eq hslot (fun _ h => h.2) (hguards v) hs₂
    have hvalues := keeps_guardValues (hguards v) s₂ hs₂
    dsimp only
    rw [Run.bind_apply, Run.bind_apply, hset]
    dsimp only
    rw [Run.bind_apply] at hchoose ⊢
    rw [hchoose]
    -- A guard that fails fails both runs, at the same point.
    cases hvs : guardValues run tests s₂ with
    | error e s₃ =>
      rw [hvs] at hvalues
      exact ⟨rfl, hvalues.2⟩
    | ok vs s₃ =>
      rw [hvs] at hvalues
      exact ⟨rfl, hvalues.2⟩

/-- The clauses without a value are those without a guard. -/
private theorem findIdx?_isNone {α β : Type} {xs : List (Option α)} {ys : List (Option β)}
    (h : xs.map Option.isSome = ys.map Option.isSome) :
    xs.findIdx? Option.isNone = ys.findIdx? Option.isNone := by
  have hmap {γ : Type} (zs : List (Option γ)) :
      zs.findIdx? Option.isNone = (zs.map Option.isSome).findIdx? not := by
    rw [List.findIdx?_map]
    refine congrArg (zs.findIdx? ·) (funext fun z => ?_)
    cases z <;> rfl
  rw [hmap, hmap, h]

/-- A clause that is chosen by the value of its guard has a guard. -/
private theorem exists_guard {tests : List (Option Node)} {v : Value} {vs : List (Option Value)}
    (h : vs.map Option.isSome = tests.map Option.isSome) {k : Nat}
    (hk : vs.findIdx? (· = some v) = some k) : ∃ g, tests[k]? = some (some g) := by
  obtain ⟨hlt, hmatch, -⟩ := List.findIdx?_eq_some_iff_getElem.1 hk
  have hsome : (tests.map Option.isSome)[k]? = some true := by
    rw [← h, List.getElem?_map, List.getElem?_eq_getElem hlt, of_decide_eq_true hmatch]
    rfl
  obtain ⟨test, htest, hguard⟩ := Option.map_eq_some_iff.1 (List.getElem?_map ▸ hsome)
  obtain ⟨g, rfl⟩ := Option.isSome_iff_exists.1 hguard
  exact ⟨g, htest⟩

/-- The dispatch of a switch, whatever is reported when it is lowered: the discriminant is evaluated
    first, and then every guard, the last one first. From the first clause whose guard has the value
    of the discriminant, or else from the first default clause, the bodies run one after the other,
    up to a branch to the end of the switch. A default clause that is not the first one is never
    selected. -/
theorem evalNode_switch (env : Environment σ) (depth clock : Nat) {Γ : TypeContext}
    (hfc : fc.Fits Γ) (hcall : CallsKeepSlots (env.call depth) Γ) {span : Span} {d : Expr}
    {clauses : List Clause} (hne : clauses ≠ []) {st st' : State} {n : Node}
    (hst : st.WellBound fc.settings.width)
    (h : lower fc (.switchStmt span d clauses) st = .ok n st') (hlocals : st'.LocalsOf Γ)
    {s : Machine.State σ} (hs : HasSlots Γ.locals s) :
    let run := evalNode (env.call depth) clock
    let r := (compileDiscriminant (fc.context st) d).value
    let tests := clauseTests fc r.2 clauses (st.switched fc d)
    let bodies := clauseBodies fc clauses (st.switched fc d)
    run n s = (do
        let (v, vs) ← comparands run st.locals.length r.1 tests
        runFrom run ((st.nextScope .switch).label .exit) bodies (selected v vs)) s ∧
      ∀ v vs j k, j < k → vs[j]? = some none → vs[k]? = some none → selected v vs ≠ some k := by
  intro run r tests bodies
  refine ⟨?_, fun v vs j k => selected_ne_later_default⟩
  obtain ⟨cases, st₁, hclauses, hdispatch, rfl⟩ := lower_switch hne h
  obtain ⟨select, hselect, rfl⟩ := dispatchNode_eq_ok hdispatch
  have hkeep : CallsKeepLocals (env.call depth) := call_keeps_locals env depth
  have hkeeps : ∀ v g, some g ∈ cases.map Case.guard → Keeps
      (fun s => HasSlots Γ.locals s ∧ s.locals[st.locals.length]? = some v) (value (run g))
      (fun w => w.slot = r.2.slot fc.settings.width) Exit.Unbranching :=
    keeps_guards hfc hcall hkeep hst hclauses hlocals
  have hadv := lowerClauses_advances clauses hclauses
  have hlocals' : st₁.LocalsOf Γ := hlocals
  have hlocals₁ := hlocals'.of_advances hadv
  have hctx : (fc.context st).Fits Γ :=
    State.LocalsOf.fits (((List.prefix_append _ _).map _).trans hlocals₁) hfc hst
  obtain ⟨htests, hbodies⟩ := lowerClauses_parts hclauses (.refl _)
  have hlocal : Γ.locals[st.locals.length]? = some (r.2.slot fc.settings.width) :=
    hlocals₁.getElem? (State.slot_declared ..)
  have hguards : ∀ v g, some g ∈ tests → Keeps
      (fun s => HasSlots Γ.locals s ∧ s.locals[st.locals.length]? = some v) (value (run g))
      (fun w => w.slot = r.2.slot fc.settings.width) Exit.Unbranching := by
    rw [htests] at hkeeps
    exact hkeeps
  have hdispatched := dispatchRun_comparands (compileDiscriminant_isInteger _ d) hlocal
    (keeps_discriminant hcall hkeep hctx d) hguards hs
  have hcode := congrFun (evalAll_dispatch (env.call depth) clock r.1
    (fallbackLabel (st.nextScope .switch) cases) hselect) s
  rw [htests, Run.bind_apply] at hcode
  show catching _ (evalAll (env.call depth) clock none (nest _ cases)) s = _
  rw [Run.bind_apply]
  cases hrun : comparands run st.locals.length r.1 tests s with
  | error e s' =>
    rw [hrun] at hdispatched
    rw [hdispatched.1] at hcode
    have hother := hdispatched.2
    exact Run.catching_of_error (nest_of_error hcode fun c _ => hother c.label) (hother _)
  | ok p s' =>
    obtain ⟨v, vs⟩ := p
    rw [hrun] at hdispatched
    obtain ⟨hchosen, hshape⟩ := hdispatched
    rw [hchosen] at hcode
    have hlen := length_le_of_selectNode hselect
    rw [List.length_map, Nat.sub_zero] at hlen
    have hown := lowerClauses_own_labels hclauses
    -- The table leads to the clause that was chosen, or to the default.
    have hleads := table_leadsTo (k := vs.findIdx? (· = some v)) hlen
      (fun k hk => htests ▸ exists_guard hshape hk) (lowerClauses_leadsTo hclauses)
    rw [htests, ← findIdx?_isNone hshape] at hleads
    -- No body branches to a clause of the switch, as their labels are foreign to it.
    have havoid : ∀ c ∈ cases, Code.AllAvoid (Foreign (st.labels.next + 1)) c.body :=
      lowerClauses_avoids clauses hclauses (Nat.le_refl _)
    refine (catching_nest hkeep hleads (lowerClauses_labels hclauses).1
      (fun c hc => (hown c hc).2.1) (fun c hc => ?_) havoid hcode).trans ?_
    · obtain ⟨hscope, hexit, hnext⟩ := hown c hc
      exact ⟨hexit, hnext, hscope ▸ Nat.lt_succ_self _⟩
    · rw [hbodies]
      rfl

/-- A switch whose discriminant and one of whose guards assign to `x`, with two default clauses. -/
def crossing : Stmt :=
  let number (k : BitVec 64) : Expr := .literal .empty (.int k)
  let add (k : BitVec 64) : Expr := .assign .empty .add ⟨.empty, "x"⟩ (number k)
  .switchStmt .empty (add 1) [
    .mk none [.exprStmt .empty (add 100)] .empty,
    .mk (some (add 10)) [.breakStmt .empty] .empty,
    .mk none [.exprStmt .empty (add 1000)] .empty,
    .mk (some (number 1)) [.exprStmt .empty (add 10000)] .empty]

/-- The state of lowering in which `x` is the only variable. -/
def besides : State where
  bindings := [[("x", ⟨0, .i32, false⟩)]]
  locals := [⟨"x", .i32⟩]

/-- The statement is lowered with two locals, one of them for its discriminant. -/
private theorem crossing_lowered : ∃ n st', lower ⟨{}, {}, .void⟩ crossing besides = .ok n st' ∧
    st'.locals.map Code.Local.slot = [.i32, .i32] := by
  have hslots : (Lower.after (lower ⟨{}, {}, .void⟩ crossing) besides).locals.map
      Code.Local.slot = [.i32, .i32] := by
    decide +kernel
  have hok : ((lower ⟨{}, {}, .void⟩ crossing).run' besides).isSome = true := by
    decide +kernel
  obtain ⟨n, hn⟩ := Option.isSome_iff_exists.1 hok
  obtain ⟨st', hlower⟩ := exists_ok_of_run' hn
  rw [Lower.after_of_ok hlower] at hslots
  exact ⟨n, st', hlower, hslots⟩

/-- No guard has the value of the discriminant, which is 6, so that the first default clause is
    selected. The second clause breaks. -/
theorem crossing_default : ∃ n st', lower ⟨{}, {}, .void⟩ crossing besides = .ok n st' ∧
    evalNode (Environment.call (σ := Unit) ⟨⟨[], []⟩, fun _ => none⟩ 0) 0 n
        ⟨[.i32 5, .i32 0], none, 0, ()⟩ =
      .ok none ⟨[.i32 116, .i32 6], none, 0, ()⟩ := by
  obtain ⟨n, st', hlower, hslots⟩ := crossing_lowered
  have hfc : FunctionContext.Fits ⟨{}, {}, .void⟩ ⟨[.i32, .i32], fun _ => none, .none⟩ :=
    ⟨rfl, fun name s h => by cases h⟩
  have hcall : CallsKeepSlots (Environment.call (σ := Unit) ⟨⟨[], []⟩, fun _ => none⟩ 0)
      ⟨[.i32, .i32], fun _ => none, .none⟩ := fun id params result args h => by cases h
  have hst : besides.WellBound .w32 := by
    intro scope hscope name v hv
    obtain rfl := List.mem_singleton.1 hscope
    cases List.mem_singleton.1 hv
    rfl
  have hs : HasSlots [.i32, .i32] (⟨[.i32 5, .i32 0], none, 0, ()⟩ : Machine.State Unit) := rfl
  refine ⟨n, st', hlower, ?_⟩
  refine (evalNode_switch ⟨⟨[], []⟩, fun _ => none⟩ 0 0 hfc hcall (by simp) hst hlower
    (hslots ▸ List.prefix_rfl) hs).1.trans ?_
  rfl

end Weir.Lowering
