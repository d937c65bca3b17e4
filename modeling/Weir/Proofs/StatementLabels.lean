import Weir.Proofs.LowerProgress
import Weir.Proofs.PlainCode

/-!
# Labels of lowered statements

Labels carry the number of their scope, and scopes are numbered in the order in which they are
opened. So the labels that a lowered statement binds have the numbers that lowering it gave out, and
no two nodes in it bind the same label.

## Key results

- `nest_boundLabels`: the labels in the nest of blocks of a switch
- `lower_distinct`, `lowerAll_distinct`: no label is bound twice in lowered statements
-/

namespace Weir.Lowering

open Weir.Code (Label LabelKind Node Slot allPlain boundLabelsAll boundLabelsAll_append)
open Weir.Source (Clause Declarator Expr PointerWidth Span Stmt Ty)

/-- Labels that are all different, with numbers from `lo` up to `hi`. -/
structure Distinct (lo hi : Nat) (labels : List Label) : Prop where
  nodup : labels.Nodup
  bounds : ∀ l ∈ labels, lo ≤ l.scope ∧ l.scope < hi

namespace Distinct

variable {lo mid hi : Nat} {ls ms : List Label}

private theorem nil : Distinct lo hi [] := ⟨List.nodup_nil, by simp⟩

/-- Labels above a bound are above a lower one. -/
theorem mono (h : Distinct mid hi ls) (hlo : lo ≤ mid) : Distinct lo hi ls :=
  ⟨h.nodup, fun l hl => ⟨Nat.le_trans hlo (h.bounds l hl).1, (h.bounds l hl).2⟩⟩

/-- The order of the labels does not matter. -/
private theorem perm (h : Distinct lo hi ls) (hp : ls.Perm ms) : Distinct lo hi ms :=
  ⟨hp.nodup_iff.1 h.nodup, fun l hl => h.bounds l (hp.mem_iff.2 hl)⟩

/-- Labels with lower numbers are different from labels with higher ones. -/
theorem append (h : Distinct lo mid ls) (h' : Distinct mid hi ms) (hlo : lo ≤ mid)
    (hhi : mid ≤ hi) : Distinct lo hi (ls ++ ms) where
  nodup := by
    -- A label of the first list has a scope below those of the second one.
    refine List.nodup_append.2 ⟨h.nodup, h'.nodup, fun l hl m hm heq => ?_⟩
    have hlt := (h.bounds l hl).2
    have hle := (h'.bounds m hm).1
    rw [heq] at hlt
    omega
  bounds l hl := by
    rcases List.mem_append.1 hl with hl | hl
    · have := h.bounds l hl
      omega
    · have := h'.bounds l hl
      omega

/-- The labels of a scope are different from the labels of scopes opened after it. -/
private theorem enter (h : Distinct (lo + 1) hi ls) (hlt : lo < hi) (own : List Label)
    (hnodup : own.Nodup) (hown : ∀ l ∈ own, l.scope = lo) : Distinct lo hi (own ++ ls) := by
  -- The scope alone takes up one number.
  have hdistinct : Distinct lo (lo + 1) own := by
    refine ⟨hnodup, fun l hl => ?_⟩
    have := hown l hl
    omega
  exact hdistinct.append h (Nat.le_succ _) hlt

end Distinct

/-! ## Loops -/

section

variable {scope : LabelScope} {c b : Node}

/-- A `while` loop binds the labels of its end and of its next round, and those of its body. -/
private theorem whileNode_boundLabels (hc : c.boundLabels = []) :
    (whileNode scope c b).boundLabels =
      [scope.label .exit, scope.label .next] ++ b.boundLabels := by
  unfold whileNode
  dsimp only
  split <;> simp [Node.boundLabels, boundLabelsAll, hc]

/-- A `do` loop binds all three labels of its scope. -/
private theorem doWhileNode_boundLabels (hc : c.boundLabels = []) :
    (doWhileNode scope c b).boundLabels =
      [scope.label .exit, scope.label .head, scope.label .next] ++ b.boundLabels := by
  simp [doWhileNode, Node.boundLabels, boundLabelsAll, hc]

private theorem boundLabelsAll_toList (o : Option Node) :
    boundLabelsAll o.toList = (o.map Node.boundLabels).getD [] := by
  cases o <;> simp [boundLabelsAll]

/-- A `for` loop binds all three labels of its scope, and its parts bind theirs. -/
private theorem forNode_boundLabels {i c u : Option Node} (hc : ∀ n ∈ c, n.boundLabels = [])
    (hu : ∀ n ∈ u, n.boundLabels = []) : ((i.map Node.boundLabels).getD [] ++
      ([scope.label .exit, scope.label .head, scope.label .next] ++ b.boundLabels)).Perm
      (forNode scope i c u b).boundLabels := by
  have hupdate : boundLabelsAll u.toList = [] := by
    rw [boundLabelsAll_toList]
    cases u with
    | none => rfl
    | some u => exact hu u rfl
  -- The exit comes first in the node, but the labels of the initial part have lower numbers.
  have hnode : (forNode scope i c u b).boundLabels =
      scope.label .exit :: ((i.map Node.boundLabels).getD [] ++
        ([scope.label .head, scope.label .next] ++ b.boundLabels)) := by
    unfold forNode
    cases c with
    | none =>
      simp [Node.boundLabels, boundLabelsAll, boundLabelsAll_append, boundLabelsAll_toList i,
        hupdate]
    | some c =>
      simp [Node.boundLabels, boundLabelsAll, boundLabelsAll_append, boundLabelsAll_toList i,
        hupdate, hc c rfl]
  rw [hnode]
  exact List.perm_middle

end

/-! ## Switches -/

/-- The nest of blocks of a switch binds the labels of its clauses, and what is bound in its
    dispatch and in the bodies of the clauses. -/
theorem nest_boundLabels (cases : List Case) (entry : List Node) :
    (boundLabelsAll (nest entry cases)).Perm
      (cases.map Case.label ++
        (boundLabelsAll entry ++ cases.flatMap fun c => boundLabelsAll c.body)) := by
  induction cases generalizing entry with
  | nil => simp
  | cons c cs ih =>
    refine (ih _).trans ?_
    simp only [boundLabelsAll, Node.boundLabels, Option.toList_some, List.map_cons,
      List.flatMap_cons, List.cons_append, List.nil_append, List.append_assoc]
    exact List.perm_middle

/-- A switch binds its exit, the labels of its clauses, and what their bodies bind. -/
private theorem dispatchNode_boundLabels {scope : LabelScope} {condition : Nat} {slot : Slot}
    {value n : Node} {cases : List Case} (hvalue : value.isPlain)
    (hguards : ∀ c ∈ cases, ∀ g ∈ c.guard, g.isPlain)
    (h : dispatchNode scope condition slot value cases = .ok n) :
    ((scope.label .exit :: cases.map Case.label) ++
      cases.flatMap fun c => boundLabelsAll c.body).Perm n.boundLabels := by
  obtain ⟨index, hindex, rfl⟩ := dispatchNode_eq_ok h
  -- The dispatch binds no labels: what it compares are guards of clauses.
  have hindex_plain : index.isPlain := by
    refine selectNode_isPlain (fun g hg => ?_) hindex
    obtain ⟨p, hp, rfl⟩ := List.mem_map.1 hg
    obtain ⟨c, hc, heq⟩ := List.mem_filterMap.1 hp
    obtain ⟨guard, hguard, rfl⟩ := Option.map_eq_some_iff.1 heq
    exact hguards c hc guard hguard
  refine List.Perm.symm (List.Perm.cons _ ((nest_boundLabels cases _).trans ?_))
  simp [boundLabelsAll, Node.boundLabels, Node.boundLabels_of_isPlain value hvalue,
    Node.boundLabels_of_isPlain index hindex_plain]

/-! ## Statements -/

variable {fc : FunctionContext}

/-- What stands for a statement that cannot be lowered binds no label. -/
private theorem poison_boundLabels : (poison fc).boundLabels = [] := by
  unfold poison
  split <;> rfl

private theorem getD_boundLabels (o : Option Node) :
    (o.getD .nop).boundLabels = (o.map Node.boundLabels).getD [] := by
  cases o <;> rfl

mutual

/-- No label is bound twice in a lowered statement, and the labels that it binds have the numbers
    that lowering it gave out. -/
theorem lower_distinct : (s : Stmt) → ∀ {st st' : State} {n : Node},
    lower fc s st = .ok n st' → Distinct st.labels.next st'.labels.next n.boundLabels
  | .exprStmt _ e, st, st', n, h => by
    obtain ⟨rfl, rfl⟩ := lower_exprStmt h
    rw [Node.boundLabels_of_isPlain _ (compileDiscarded_isPlain _ e)]
    exact .nil
  | .varDecl _ kind ds, st, st', n, h => by
    obtain ⟨sets, hsets, rfl⟩ := lower_varDecl h
    rw [Node.boundLabels_of_isPlain _ (sequence_isPlain (lowerDeclarators_isPlain hsets))]
    exact .nil
  | .returnStmt _ value, st, st', n, h => by
    rcases lower_return h with ⟨e, -, -, rfl, rfl⟩ | ⟨-, -, rfl, rfl⟩ | ⟨rfl, d, rfl⟩
    · rw [Node.boundLabels, Node.boundLabels_of_isPlain _ (compileReturned_isPlain _ e _)]
      exact .nil
    · exact .nil
    · rw [poison_boundLabels]
      exact .nil
  | .ifStmt _ c t e, st, st', n, h => by
    obtain ⟨tn, st₁, en, ht, he, rfl⟩ := lower_if h
    have htest := Node.boundLabels_of_isPlain _ (compileCondition_isPlain (fc.context st) c)
    -- The numbers of the second branch go on where those of the first one end.
    have hdistinct : Distinct st.labels.next st'.labels.next _ :=
      (lower_distinct t ht).append (lowerOption_distinct e he) (lower_advances t ht).next
        (lowerOption_advances e he).next
    cases en with
    | none => simpa [Node.boundLabels, htest] using hdistinct
    | some en => simpa [Node.boundLabels, htest] using hdistinct
  | .forStmt _ init c u body, st, st', n, h => by
    obtain ⟨i, st₁, bn, st₂, hinit, hbody, -, rfl, rfl⟩ := lower_for h
    have hadv₁ := lowerOption_advances init hinit
    have hadv₂ := lowerOption_advances body hbody
    -- The scope of the loop is numbered after those of the initial part, and before the body's.
    have hloop := (lowerOption_distinct body hbody).enter hadv₂.next
      [(st₁.nextScope .loop).label .exit, (st₁.nextScope .loop).label .head,
        (st₁.nextScope .loop).label .next]
      (by simp [LabelScope.label]) (by simp [LabelScope.label, State.nextScope])
    rw [← getD_boundLabels] at hloop
    refine ((lowerOption_distinct init hinit).append hloop hadv₁.next
      (Nat.le_of_lt hadv₂.next)).perm (forNode_boundLabels (fun n hn => ?_) fun n hn => ?_)
    · have hplain := isPlain_of_mapM (compileCondition_isPlain (fc.context st₂)) c n hn
      exact Node.boundLabels_of_isPlain n hplain
    · have hplain := isPlain_of_mapM (compileDiscarded_isPlain (fc.context st₂)) u n hn
      exact Node.boundLabels_of_isPlain n hplain
  | .whileStmt _ c body, st, st', n, h => by
    obtain ⟨bn, st₁, hbody, rfl, rfl⟩ := lower_while h
    have htest := Node.boundLabels_of_isPlain _ (compileCondition_isPlain (fc.context st₁) c)
    rw [whileNode_boundLabels htest, getD_boundLabels]
    exact (lowerOption_distinct body hbody).enter (lowerOption_advances body hbody).next _
      (by simp [LabelScope.label]) (by simp [LabelScope.label, State.nextScope])
  | .doWhile _ body c, st, st', n, h => by
    obtain ⟨bn, st₁, hbody, rfl, rfl⟩ := lower_doWhile h
    have htest := Node.boundLabels_of_isPlain _ (compileCondition_isPlain (fc.context st₁) c)
    rw [doWhileNode_boundLabels htest]
    exact (lower_distinct body hbody).enter (lower_advances body hbody).next _
      (by simp [LabelScope.label]) (by simp [LabelScope.label, State.nextScope])
  | .block _ ss, st, st', n, h => by
    obtain ⟨nodes, st₁, hnodes, rfl, rfl⟩ := lower_block h
    have hall := lowerAll_distinct ss hnodes
    exact hall
  | .breakStmt _, st, st', n, h => by
    obtain ⟨label, -, rfl, rfl⟩ := lower_break h
    exact .nil
  | .continueStmt _, st, st', n, h => by
    obtain ⟨label, -, rfl, rfl⟩ := lower_continue h
    exact .nil
  | .switchStmt _ d [], st, st', n, h => by
    obtain ⟨rfl, rfl⟩ := lower_switch_nil h
    have hplain : (compileDropped (fc.context st) d).value.isPlain :=
      compileDropped_isPlain _ d .void
    rw [Node.boundLabels_of_isPlain _ hplain]
    exact .nil
  | .switchStmt _ d (clause :: clauses), st, st', n, h => by
    obtain ⟨cases, st₁, hclauses, hdispatch, rfl⟩ := lower_switch (by simp) h
    obtain ⟨hnodup, -⟩ := lowerClauses_labels hclauses
    have hbodies := lowerClauses_distinct (clause :: clauses) hclauses
    refine Distinct.perm ?_ (dispatchNode_boundLabels (compileDiscriminant_isPlain _ d)
      (lowerClauses_isPlain hclauses) hdispatch)
    refine hbodies.enter (lowerClauses_advances (clause :: clauses) hclauses).next _
      (List.nodup_cons.2 ⟨?_, hnodup⟩)
      (List.forall_mem_cons.2 ⟨rfl, fun l hl => ?_⟩)
    · -- The exit of the switch is not the label of a clause.
      intro hmem
      obtain ⟨c, hc, heq⟩ := List.mem_map.1 hmem
      have hkind := (lowerClauses_own_labels hclauses c hc).2.1
      rw [heq] at hkind
      exact hkind rfl
    · obtain ⟨c, hc, rfl⟩ := List.mem_map.1 hl
      exact (lowerClauses_own_labels hclauses c hc).1
  | .empty _, st, st', n, h => by
    obtain ⟨rfl, rfl⟩ := lower_empty h
    exact .nil
termination_by structural s => s

private theorem lowerOption_distinct : (s : Option Stmt) → ∀ {st st' : State} {o : Option Node},
    lowerOption fc s st = .ok o st' →
    Distinct st.labels.next st'.labels.next ((o.map Node.boundLabels).getD [])
  | none, st, st', o, h => by
    obtain ⟨rfl, rfl⟩ := lowerOption_none h
    exact .nil
  | some s, st, st', o, h => by
    obtain ⟨node, hnode, rfl⟩ := lowerOption_some h
    exact lower_distinct s hnode
termination_by structural s => s

theorem lowerAll_distinct : (ss : List Stmt) → ∀ {st st' : State} {ns : List Node},
    lowerAll fc ss st = .ok ns st' →
    Distinct st.labels.next st'.labels.next (boundLabelsAll ns)
  | [], st, st', ns, h => by
    obtain ⟨rfl, rfl⟩ := lowerAll_nil h
    exact .nil
  | s :: ss, st, st', ns, h => by
    obtain ⟨node, st₁, nodes, hnode, hnodes, rfl⟩ := lowerAll_cons h
    exact (lower_distinct s hnode).append (lowerAll_distinct ss hnodes)
      (lower_advances s hnode).next (lowerAll_advances ss hnodes).next
termination_by structural ss => ss

private theorem lowerClauses_distinct {scope : LabelScope} {compared : Ty} :
    (clauses : List Clause) →
    ∀ {ordinal : Nat} {hasDefault : Bool} {st st' : State} {cases : List Case},
    lowerClauses fc scope compared ordinal hasDefault clauses st = .ok cases st' →
    Distinct st.labels.next st'.labels.next (cases.flatMap fun c => boundLabelsAll c.body)
  | [], ordinal, hasDefault, st, st', cases, h => by
    obtain ⟨rfl, rfl⟩ := lowerClauses_nil h
    exact .nil
  | .mk test body span :: clauses, ordinal, hasDefault, st, st', cases, h => by
    obtain ⟨r, st₁, nodes, st₂, rest, htest, hbody, hrest, rfl⟩ := lowerClauses_cons h
    have hlater := lowerClauses_distinct clauses hrest
    exact ((lowerAll_distinct body hbody).append hlater (lowerAll_advances body hbody).next
      (lowerClauses_advances clauses hrest).next).mono (lowerTest_advances htest).next
termination_by structural clauses => clauses

end

end Weir.Lowering
