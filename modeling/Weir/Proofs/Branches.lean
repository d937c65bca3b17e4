import Weir.Proofs.ExpressionRuns
import Weir.Proofs.LowerProgress
import Weir.Proofs.PlainCode

/-!
# Branches of lowered statements

A run of code branches only to labels that some node of the code names. Lowered statements name the
labels of scopes that were opened for them, and of scopes around them only the ends of loops and
switches and the next rounds of loops. So they never branch to a clause of a switch around them.

## Key results

- `keeps_of_avoids`: code that does not name a label does not branch to it
- `lower_avoids`, `lowerAll_avoids`: the labels that lowered statements do not name
-/

namespace Weir.Code

mutual

/-- No node of a tree branches to one of the given labels. -/
def Node.Avoids (bad : Label → Prop) : Node → Prop
  | .nop | .unreachable | .const _ | .localGet .. | .ret => True
  | .br label => ¬ bad label
  | .brIf label c => ¬ bad label ∧ c.Avoids bad
  | .brTable targets fallback e => (∀ l ∈ targets, ¬ bad l) ∧ ¬ bad fallback ∧ e.Avoids bad
  | .block _ children => AllAvoid bad children
  | .loop _ body => body.Avoids bad
  | .ifThen _ c t => c.Avoids bad ∧ t.Avoids bad
  | .ifElse _ c t e | .select c t e => c.Avoids bad ∧ t.Avoids bad ∧ e.Avoids bad
  | .drop e | .localSet _ e | .localTee _ _ e | .unary _ _ e | .convert _ e | .retValue e =>
    e.Avoids bad
  | .binary _ _ l r => l.Avoids bad ∧ r.Avoids bad
  | .call _ args _ => AllAvoid bad args
termination_by structural n => n

/-- None of the nodes branches to one of the given labels. -/
def AllAvoid (bad : Label → Prop) : List Node → Prop
  | [] => True
  | n :: ns => n.Avoids bad ∧ AllAvoid bad ns
termination_by structural ns => ns

end

variable {bad : Label → Prop}

/-- All of the nodes avoid the labels if each of them does. -/
theorem allAvoid_iff {ns : List Node} : AllAvoid bad ns ↔ ∀ n ∈ ns, n.Avoids bad := by
  induction ns with
  | nil => simp [AllAvoid]
  | cons n ns ih => simp [AllAvoid, ih]

mutual

/-- Plain code does not branch at all. -/
theorem Node.avoids_of_isPlain : (n : Node) → n.isPlain → n.Avoids bad
  | .nop, _ | .unreachable, _ | .const _, _ | .localGet .., _ => trivial
  | .block none children, h => allAvoid_of_allPlain children h
  | .ifThen _ c t, h => by
    simp only [Node.isPlain, Bool.and_eq_true] at h
    exact ⟨Node.avoids_of_isPlain c h.1, Node.avoids_of_isPlain t h.2⟩
  | .ifElse _ c t e, h | .select c t e, h => by
    simp only [Node.isPlain, Bool.and_eq_true] at h
    exact ⟨Node.avoids_of_isPlain c h.1, Node.avoids_of_isPlain t h.2.1,
      Node.avoids_of_isPlain e h.2.2⟩
  | .drop e, h | .localSet _ e, h | .localTee _ _ e, h | .unary _ _ e, h | .convert _ e, h =>
    Node.avoids_of_isPlain e h
  | .binary _ _ l r, h => by
    simp only [Node.isPlain, Bool.and_eq_true] at h
    exact ⟨Node.avoids_of_isPlain l h.1, Node.avoids_of_isPlain r h.2⟩
  | .call _ args _, h => allAvoid_of_allPlain args h
termination_by structural n => n

private theorem allAvoid_of_allPlain : (ns : List Node) → allPlain ns → AllAvoid bad ns
  | [], _ => trivial
  | n :: ns, h => by
    simp only [allPlain, Bool.and_eq_true] at h
    exact ⟨Node.avoids_of_isPlain n h.1, allAvoid_of_allPlain ns h.2⟩
termination_by structural ns => ns

end

end Weir.Code

namespace Weir.Machine

open Weir.Code

/-! ## Runs -/

/-- The exit is no branch to one of the given labels. -/
def Exit.Avoids (bad : Label → Prop) (e : Exit) : Prop := ∀ label, e = .branch label → ¬ bad label

variable {σ α : Type} {bad : Label → Prop}

/-- A run that does not end by branching to one of the given labels. -/
abbrev Avoids (bad : Label → Prop) (run : Run σ α) : Prop :=
  Keeps (fun _ => True) run (fun _ => True) (Exit.Avoids bad)

/-- An exit that is no branch avoids all labels. -/
private theorem Exit.Unbranching.avoids {e : Exit} (h : e.Unbranching) : e.Avoids bad :=
  fun label heq => absurd heq (h label)

/-- A run that makes no branch avoids all labels. -/
private theorem avoids_of_keepsLocals {run : Run σ α} (h : KeepsLocals (fun _ => True) run) :
    Avoids bad run :=
  h.mono (fun _ hQ => hQ) fun _ he => he.avoids

private theorem Avoids.value {run : Run σ (Option Value)} (h : Avoids bad run) :
    Avoids bad (Run.value run) :=
  Keeps.value h fun label heq => by cases heq

private theorem Avoids.condition {run : Run σ (Option Value)} (h : Avoids bad run) :
    Avoids bad (Run.condition run) :=
  Keeps.condition h (fun label heq => by cases heq) fun _ _ _ label heq => by cases heq

private theorem avoids_setLocal {index : Nat} {v : Value} :
    Avoids bad (Run.setLocal index v : Run σ Unit) :=
  keeps_setLocal (fun _ _ _ _ _ => trivial) (fun _ _ _ _ _ label heq => by cases heq)
    fun _ _ _ label heq => by cases heq

private theorem avoids_ofExcept {r : Except Trap α} : Avoids bad (Run.ofExcept r : Run σ α) :=
  avoids_of_keepsLocals keepsLocals_ofExcept

/-- An operator on values that are there is no branch. -/
private theorem avoids_operator {r : Except Trap Value} :
    Avoids bad (do let v ← Run.ofExcept r; pure (some v) : Run σ (Option Value)) :=
  avoids_ofExcept.bind fun _ _ => keeps_pure trivial

/-- A block does nothing to a run that does not branch to its label. -/
theorem catching_of_avoids {label : Label} {run : Run σ (Option Value)}
    (h : Avoids bad run) (hlabel : bad label) : Run.catching label run = run := by
  funext s
  cases hrun : run s with
  | ok v s' => exact Run.catching_of_ok hrun
  | error e s' =>
    refine Run.catching_of_error hrun fun heq => ?_
    exact (h.of_error trivial hrun).2 label heq hlabel

variable {call : Nat → List Value → Run σ (Option Value)} {clock : Nat}

mutual

/-- A run does not branch to a label that no node branches to. The induction is on the node. -/
theorem keeps_of_avoids (hcall : CallsKeepLocals call) :
    (n : Node) → n.Avoids bad → Avoids bad (evalNode call clock n)
  | .nop, _ => by simp only [evalNode]; exact keeps_pure trivial
  | .unreachable, _ => by
    simp only [evalNode]
    exact avoids_of_keepsLocals keepsLocals_trap
  | .const v, _ => by simp only [evalNode]; exact keeps_pure trivial
  | .ret, _ => by
    simp only [evalNode]
    exact keeps_throw fun label heq => by cases heq
  | .br target, h => by
    simp only [evalNode]
    exact keeps_throw fun label heq => by cases heq; exact h
  | .block none children, h => by
    simp only [evalNode]
    exact keeps_of_allAvoid hcall none children h
  | .block (some target) children, h => by
    simp only [evalNode]
    exact (keeps_of_allAvoid hcall none children h).catching trivial fun _ he _ => he
  | .loop target body, h => by
    simp only [evalNode]
    -- Each round spends fuel first, and what the body leaves with is not one of the labels either.
    exact (keeps_of_avoids hcall body h).repeating
      (keeps_spend (fun _ _ _ _ => trivial) fun label heq => by cases heq)
      (fun label heq => by cases heq) (fun _ he _ => he) clock
  | .ifThen _ c t, h => by
    simp only [evalNode]
    exact (keeps_of_avoids hcall c h.1).condition.bind fun b _ =>
      Keeps.ite (keeps_of_avoids hcall t h.2) (keeps_pure trivial)
  | .ifElse _ c t e, h => by
    simp only [evalNode]
    exact (keeps_of_avoids hcall c h.1).condition.bind fun b _ =>
      Keeps.ite (keeps_of_avoids hcall t h.2.1) (keeps_of_avoids hcall e h.2.2)
  | .select c t e, h => by
    simp only [evalNode]
    exact (keeps_of_avoids hcall t h.2.1).value.bind fun _ _ =>
      (keeps_of_avoids hcall e h.2.2).value.bind fun _ _ =>
        (keeps_of_avoids hcall c h.1).condition.bind fun _ _ => keeps_pure trivial
  | .brIf target c, h => by
    simp only [evalNode]
    refine (keeps_of_avoids hcall c h.2).condition.bind fun b _ => Keeps.ite ?_ ?_
    · -- A branch is taken to the label of the node, which is none of those to avoid.
      exact keeps_throw fun label heq => by cases heq; exact h.1
    · exact keeps_pure trivial
  | .brTable targets fallback index, h => by
    simp only [evalNode]
    refine (keeps_of_avoids hcall index h.2.2).value.bind fun v _ =>
      avoids_ofExcept.bind fun i _ => keeps_throw ?_
    -- Whatever the number is, it picks one of the labels of the table.
    intro label heq
    cases heq
    cases hi : targets[i.toNat]? with
    | none => exact h.2.1
    | some target => exact h.1 target (List.mem_of_getElem? hi)
  | .retValue e, h => by
    simp only [evalNode]
    exact (keeps_of_avoids hcall e h).value.bind fun _ _ =>
      keeps_throw fun label heq => by cases heq
  | .drop e, h => by
    simp only [evalNode]
    exact (keeps_of_avoids hcall e h).bind fun _ _ => keeps_pure trivial
  | .localGet index _, _ => by
    simp only [evalNode]
    exact (avoids_of_keepsLocals keepsLocals_getLocal).bind fun _ _ => keeps_pure trivial
  | .localSet index e, h | .localTee index _ e, h => by
    simp only [evalNode]
    exact (keeps_of_avoids hcall e h).value.bind fun _ _ =>
      avoids_setLocal.bind fun _ _ => keeps_pure trivial
  | .unary op _ e, h | .convert op e, h => by
    simp only [evalNode]
    exact (keeps_of_avoids hcall e h).value.bind fun _ _ => avoids_operator
  | .binary op _ l r, h => by
    simp only [evalNode]
    exact (keeps_of_avoids hcall l h.1).value.bind fun _ _ =>
      (keeps_of_avoids hcall r h.2).value.bind fun _ _ => avoids_operator
  | .call id args _, h => by
    simp only [evalNode]
    exact (keeps_of_allAvoidArgs hcall args h).bind fun vs _ =>
      avoids_of_keepsLocals (hcall _ id vs)
termination_by structural n => n

/-- Nodes that avoid the labels leave a run without a branch to one of them, one after the other. -/
theorem keeps_of_allAvoid (hcall : CallsKeepLocals call) (last : Option Value) :
    (ns : List Node) → AllAvoid bad ns → Avoids bad (evalAll call clock last ns)
  | [], _ => by simp only [evalAll]; exact keeps_pure trivial
  | n :: ns, h => by
    simp only [evalAll]
    exact (keeps_of_avoids hcall n h.1).bind fun v _ => keeps_of_allAvoid hcall v ns h.2
termination_by structural ns => ns

/-- Arguments that avoid the labels leave a run without a branch to one of them. -/
private theorem keeps_of_allAvoidArgs (hcall : CallsKeepLocals call) :
    (ns : List Node) → AllAvoid bad ns → Avoids bad (evalArgs call clock ns)
  | [], _ => by simp only [evalArgs]; exact keeps_pure trivial
  | n :: ns, h => by
    simp only [evalArgs]
    exact (keeps_of_avoids hcall n h.1).value.bind fun v _ =>
      (keeps_of_allAvoidArgs hcall ns h.2).bind fun vs _ => keeps_pure trivial
termination_by structural ns => ns

end

end Weir.Machine

namespace Weir.Lowering

open Weir.Code (AllAvoid Label Node allAvoid_iff)
open Weir.Source (Clause Expr Stmt Ty)

variable {fc : FunctionContext} {bound : Nat}

/-- Labels of earlier scopes, other than those that a `break` or a `continue` goes to. -/
def Foreign (bound : Nat) (label : Label) : Prop :=
  label.kind ≠ .exit ∧ label.kind ≠ .next ∧ label.scope < bound

/-- The labels of a scope that is opened later are not foreign. -/
private theorem not_foreign {scope : LabelScope} (h : bound ≤ scope.id) (kind : Code.LabelKind) :
    ¬ Foreign bound (scope.label kind) := by
  rintro ⟨-, -, hlt⟩
  exact absurd (show scope.id < bound from hlt) (Nat.not_lt.2 h)

private theorem not_foreign_exit (scope : LabelScope) : ¬ Foreign bound (scope.label .exit) :=
  fun h => h.1 rfl

private theorem not_foreign_next (scope : LabelScope) : ¬ Foreign bound (scope.label .next) :=
  fun h => h.2.1 rfl

/-! ## Loops and switches -/

section

variable {scope : LabelScope} {c b : Node}

/-- A `while` loop branches to its own labels only. -/
private theorem whileNode_avoids (hc : c.Avoids (Foreign bound)) (hb : b.Avoids (Foreign bound)) :
    (whileNode scope c b).Avoids (Foreign bound) := by
  unfold whileNode
  dsimp only
  split <;> simp [Node.Avoids, AllAvoid, hc, hb, not_foreign_next]

private theorem doWhileNode_avoids (h : bound ≤ scope.id) (hc : c.Avoids (Foreign bound))
    (hb : b.Avoids (Foreign bound)) : (doWhileNode scope c b).Avoids (Foreign bound) := by
  simp [doWhileNode, Node.Avoids, AllAvoid, hc, hb, not_foreign h]

/-- A `for` loop branches to its own labels only, and its condition is tested inside the block that
    it leaves. -/
private theorem forNode_avoids (h : bound ≤ scope.id) {i c u : Option Node}
    (hi : ∀ n ∈ i, n.Avoids (Foreign bound)) (hc : ∀ n ∈ c, n.Avoids (Foreign bound))
    (hu : ∀ n ∈ u, n.Avoids (Foreign bound)) (hb : b.Avoids (Foreign bound)) :
    (forNode scope i c u b).Avoids (Foreign bound) := by
  -- A round is the body, the update, and the branch back to the head.
  have hround : Node.Avoids (Foreign bound) (.block none
      (.block (some (scope.label .next)) [b] :: (u.toList ++ [.br (scope.label .head)]))) := by
    simp only [Node.Avoids, allAvoid_iff, List.forall_mem_cons, List.forall_mem_append,
      Option.mem_toList]
    exact ⟨⟨hb, by simp⟩, hu, not_foreign h _, by simp⟩
  unfold forNode
  simp only [Node.Avoids, allAvoid_iff, List.forall_mem_append, List.forall_mem_singleton,
    Option.mem_toList]
  refine ⟨hi, ?_⟩
  cases c with
  | none => exact hround
  | some c => exact ⟨hc c rfl, hround⟩

/-- The nest of a switch branches where its entry and its clauses do. -/
private theorem nest_avoids {cases : List Case} {entry : List Node}
    (hentry : AllAvoid (Foreign bound) entry)
    (hbodies : ∀ c ∈ cases, AllAvoid (Foreign bound) c.body) :
    AllAvoid (Foreign bound) (nest entry cases) := by
  induction cases generalizing entry with
  | nil => exact hentry
  | cons c cs ih =>
    obtain ⟨hc, hcs⟩ := List.forall_mem_cons.1 hbodies
    exact ih ⟨hentry, hc⟩ hcs

/-- A switch branches to labels of its own. -/
private theorem dispatchNode_avoids (h : bound ≤ scope.id) {condition : Nat} {slot : Code.Slot}
    {value n : Node} {cases : List Case} (hvalue : value.isPlain)
    (hguards : ∀ c ∈ cases, ∀ g ∈ c.guard, g.isPlain)
    (hlabels : ∀ c ∈ cases, c.label.scope = scope.id)
    (hbodies : ∀ c ∈ cases, AllAvoid (Foreign bound) c.body)
    (hn : dispatchNode scope condition slot value cases = .ok n) :
    n.Avoids (Foreign bound) := by
  obtain ⟨index, hindex, rfl⟩ := dispatchNode_eq_ok hn
  -- Each guard that is dispatched to is that of a clause.
  have hmem : ∀ p ∈ guardedCases cases, ∃ c ∈ cases, c.label = p.1 ∧ c.guard = some p.2 := by
    intro p hp
    obtain ⟨c, hc, heq⟩ := List.mem_filterMap.1 hp
    obtain ⟨g, hguard, rfl⟩ := Option.map_eq_some_iff.1 heq
    exact ⟨c, hc, rfl, hguard⟩
  -- The number of the clause is picked by plain code.
  have hplain : index.isPlain := by
    refine selectNode_isPlain (fun g hg => ?_) hindex
    obtain ⟨p, hp, rfl⟩ := List.mem_map.1 hg
    obtain ⟨c, hc, -, hguard⟩ := hmem p hp
    exact hguards c hc p.2 hguard
  -- The labels of the table belong to clauses, which are numbered with the scope of the switch.
  have htargets : ∀ l ∈ (guardedCases cases).map (·.1), ¬ Foreign bound l := by
    rintro l hl ⟨-, -, hlt⟩
    obtain ⟨p, hp, rfl⟩ := List.mem_map.1 hl
    obtain ⟨c, hc, hlabel, -⟩ := hmem p hp
    have hscope := hlabels c hc
    rw [hlabel] at hscope
    omega
  have hfallback : ¬ Foreign bound (fallbackLabel scope cases) := by
    unfold fallbackLabel
    split <;> exact not_foreign h _
  have hentry : AllAvoid (Foreign bound) [.localSet condition value,
      .brTable ((guardedCases cases).map (·.1)) (fallbackLabel scope cases) index] :=
    ⟨Node.avoids_of_isPlain _ hvalue, ⟨htargets, hfallback, Node.avoids_of_isPlain _ hplain⟩,
      trivial⟩
  exact nest_avoids hentry hbodies

end

/-! ## Statements -/

/-- An expression that may be missing makes no branch. -/
private theorem avoids_of_mapM {compiled : Expr → Reported Node}
    (h : ∀ e, (compiled e).value.isPlain) (o : Option Expr) :
    ∀ n ∈ (o.mapM compiled).value, n.Avoids (Foreign bound) :=
  fun n hn => Node.avoids_of_isPlain n (isPlain_of_mapM h o n hn)

/-- A statement that is missing makes no branch. -/
private theorem getD_avoids {o : Option Node} (h : ∀ n ∈ o, n.Avoids (Foreign bound)) :
    (o.getD .nop).Avoids (Foreign bound) := by
  cases o with
  | none => trivial
  | some n => exact h n rfl

mutual

/-- A lowered statement branches to no clause of a switch around it. The induction is on the
    statement; scopes that are opened in it have higher numbers. -/
theorem lower_avoids : (s : Stmt) → ∀ {st st' : State} {n : Node}, lower fc s st = .ok n st' →
    bound ≤ st.labels.next → n.Avoids (Foreign bound)
  | .exprStmt _ e, st, st', n, h, _ => by
    obtain ⟨rfl, -⟩ := lower_exprStmt h
    exact Node.avoids_of_isPlain _ (compileDiscarded_isPlain _ e)
  | .varDecl _ kind ds, st, st', n, h, _ => by
    obtain ⟨sets, hsets, rfl⟩ := lower_varDecl h
    exact Node.avoids_of_isPlain _ (sequence_isPlain (lowerDeclarators_isPlain hsets))
  | .returnStmt _ value, st, st', n, h, _ => by
    rcases lower_return h with ⟨e, -, -, rfl, -⟩ | ⟨-, -, rfl, -⟩ | ⟨rfl, -⟩
    · exact Node.avoids_of_isPlain (compileReturned _ e _).value (compileReturned_isPlain _ e _)
    · trivial
    · unfold poison
      split <;> trivial
  | .ifStmt _ c t e, st, st', n, h, hbound => by
    obtain ⟨tn, st₁, en, ht, he, rfl⟩ := lower_if h
    have hc : Node.Avoids (Foreign bound) (compileCondition (fc.context st) c).value :=
      Node.avoids_of_isPlain _ (compileCondition_isPlain _ c)
    -- The branches are lowered one after the other, and scopes are numbered on from the first one.
    have hthen := lower_avoids t ht hbound
    have helse := lowerOption_avoids e he (Nat.le_trans hbound (lower_advances t ht).next)
    cases en with
    | none => exact ⟨hc, hthen⟩
    | some en => exact ⟨hc, hthen, helse en rfl⟩
  | .forStmt _ init c u body, st, st', n, h, hbound => by
    obtain ⟨i, st₁, bn, st₂, hinit, hbody, -, rfl, -⟩ := lower_for h
    have hbound₁ : bound ≤ st₁.labels.next :=
      Nat.le_trans hbound (lowerOption_advances init hinit).next
    -- The scope of the loop takes one number more.
    have hb := lowerOption_avoids body hbody (Nat.le_succ_of_le hbound₁)
    exact forNode_avoids hbound₁ (lowerOption_avoids init hinit hbound)
      (avoids_of_mapM (compileCondition_isPlain _) c)
      (avoids_of_mapM (compileDiscarded_isPlain _) u) (getD_avoids hb)
  | .whileStmt _ c body, st, st', n, h, hbound => by
    obtain ⟨bn, st₁, hbody, rfl, -⟩ := lower_while h
    have hb := lowerOption_avoids body hbody (Nat.le_succ_of_le hbound)
    exact whileNode_avoids (Node.avoids_of_isPlain _ (compileCondition_isPlain _ c))
      (getD_avoids hb)
  | .doWhile _ body c, st, st', n, h, hbound => by
    obtain ⟨bn, st₁, hbody, rfl, -⟩ := lower_doWhile h
    have hb := lower_avoids body hbody (Nat.le_succ_of_le hbound)
    exact doWhileNode_avoids hbound
      (Node.avoids_of_isPlain _ (compileCondition_isPlain _ c)) hb
  | .block _ ss, st, st', n, h, hbound => by
    obtain ⟨nodes, st₁, hnodes, rfl, -⟩ := lower_block h
    exact lowerAll_avoids ss hnodes hbound
  | .breakStmt _, st, st', n, h, _ => by
    obtain ⟨label, htarget, rfl, -⟩ := lower_break h
    obtain ⟨scope, -, rfl⟩ := LabelStack.breakTarget_eq_ok htarget
    exact not_foreign_exit scope
  | .continueStmt _, st, st', n, h, _ => by
    obtain ⟨label, htarget, rfl, -⟩ := lower_continue h
    obtain ⟨scope, -, -, rfl⟩ := LabelStack.continueTarget_eq_ok htarget
    exact not_foreign_next scope
  | .switchStmt _ d [], st, st', n, h, _ => by
    obtain ⟨rfl, -⟩ := lower_switch_nil h
    exact Node.avoids_of_isPlain _ (compileDropped_isPlain _ d .void)
  | .switchStmt _ d (clause :: clauses), st, st', n, h, hbound => by
    obtain ⟨cases, st₁, hclauses, hdispatch, -⟩ := lower_switch (by simp) h
    exact dispatchNode_avoids hbound (compileDiscriminant_isPlain _ d)
      (lowerClauses_isPlain hclauses) (fun c hc => (lowerClauses_own_labels hclauses c hc).1)
      (lowerClauses_avoids (clause :: clauses) hclauses (Nat.le_succ_of_le hbound)) hdispatch
  | .empty _, st, st', n, h, _ => by
    obtain ⟨rfl, -⟩ := lower_empty h
    trivial
termination_by structural s => s

private theorem lowerOption_avoids : (s : Option Stmt) → ∀ {st st' : State} {o : Option Node},
    lowerOption fc s st = .ok o st' → bound ≤ st.labels.next →
    ∀ n ∈ o, n.Avoids (Foreign bound)
  | none, st, st', o, h, _ => by
    obtain ⟨rfl, -⟩ := lowerOption_none h
    exact fun n hn => by cases hn
  | some s, st, st', o, h, hbound => by
    obtain ⟨node, hnode, rfl⟩ := lowerOption_some h
    intro n hn
    cases hn
    exact lower_avoids s hnode hbound
termination_by structural s => s

theorem lowerAll_avoids : (ss : List Stmt) → ∀ {st st' : State} {ns : List Node},
    lowerAll fc ss st = .ok ns st' → bound ≤ st.labels.next → AllAvoid (Foreign bound) ns
  | [], st, st', ns, h, _ => by
    obtain ⟨rfl, -⟩ := lowerAll_nil h
    trivial
  | s :: ss, st, st', ns, h, hbound => by
    obtain ⟨node, st₁, nodes, hnode, hnodes, rfl⟩ := lowerAll_cons h
    exact ⟨lower_avoids s hnode hbound,
      lowerAll_avoids ss hnodes (Nat.le_trans hbound (lower_advances s hnode).next)⟩
termination_by structural ss => ss

/-- The bodies of clauses branch to no clause of the switch that they are in. -/
theorem lowerClauses_avoids {scope : LabelScope} {compared : Ty} : (clauses : List Clause) →
    ∀ {ordinal : Nat} {hasDefault : Bool} {st st' : State} {cases : List Case},
    lowerClauses fc scope compared ordinal hasDefault clauses st = .ok cases st' →
    bound ≤ st.labels.next → ∀ c ∈ cases, AllAvoid (Foreign bound) c.body
  | [], ordinal, hasDefault, st, st', cases, h, _ => by
    obtain ⟨rfl, -⟩ := lowerClauses_nil h
    exact fun c hc => by cases hc
  | .mk test body span :: clauses, ordinal, hasDefault, st, st', cases, h, hbound => by
    obtain ⟨r, st₁, nodes, st₂, rest, htest, hbody, hrest, rfl⟩ := lowerClauses_cons h
    have hbound₁ := Nat.le_trans hbound (lowerTest_advances htest).next
    have hbound₂ := Nat.le_trans hbound₁ (lowerAll_advances body hbody).next
    exact List.forall_mem_cons.2 ⟨lowerAll_avoids body hbody hbound₁,
      lowerClauses_avoids clauses hrest hbound₂⟩
termination_by structural clauses => clauses

end

end Weir.Lowering
