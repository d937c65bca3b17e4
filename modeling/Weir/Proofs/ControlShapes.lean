import Weir.Proofs.LowerStep

/-!
# Shapes of lowered control

Loops and switches are lowered to blocks, loops and branches around their parts. A property that
passes from the parts of such nodes to the nodes themselves passes from the parts of a loop or a
switch to the whole of it, whatever the property is about.

## Key results

- `Compositional`: the properties of which this is true
- `Compositional.whileNode`, `Compositional.doWhileNode`, `Compositional.forNode`: loops
- `Compositional.nest`, `Compositional.dispatchNode`: switches
-/

namespace Weir.Lowering

open Weir.Code (Node Slot Value)

/-- A property that passes from the parts of nodes to the nodes, for those nodes that control is
    lowered to. -/
structure Compositional (P : Node → Prop) : Prop where
  nop : P .nop
  const : ∀ v, P (.const v)
  br : ∀ label, P (.br label)
  block : ∀ label ns, (∀ n ∈ ns, P n) → P (.block label ns)
  loop : ∀ label body, P body → P (.loop label body)
  ifThen : ∀ slot c t, P c → P t → P (.ifThen slot c t)
  brIf : ∀ label c, P c → P (.brIf label c)
  brTable : ∀ targets fallback e, P e → P (.brTable targets fallback e)
  compare : ∀ index slot e, P e → P (.binary .eq slot (.localGet index slot) e)
  select : ∀ c v e, P c → P e → P (.select c (.const v) e)

namespace Compositional

variable {P : Node → Prop}

/-- A sequence has what its nodes have. -/
theorem sequence (h : Compositional P) {ns : List Node} (hns : ∀ n ∈ ns, P n) :
    P (sequence ns) := by
  unfold Lowering.sequence
  split
  · exact h.nop
  · exact hns _ (List.mem_singleton.2 rfl)
  · exact h.block _ _ hns

/-- Nodes that may be missing do nothing where they are. -/
theorem getD (h : Compositional P) {o : Option Node} (ho : ∀ n ∈ o, P n) : P (o.getD .nop) := by
  cases o with
  | none => exact h.nop
  | some n => exact ho n rfl

section

variable {scope : LabelScope} {c b : Node}

/-- The loop of a while statement has what its test and its body have. -/
theorem whileNode (h : Compositional P) (hc : P c) (hb : P b) : P (whileNode scope c b) := by
  have hagain : P (.br (scope.label .next)) := h.br _
  -- An empty body is left out of the round, and then only the jump back is left.
  refine h.block _ _ (List.forall_mem_singleton.2 (h.loop _ _ (h.ifThen _ _ _ hc ?_)))
  split
  · exact hagain
  · exact h.block _ _ (List.forall_mem_cons.2 ⟨hb, List.forall_mem_singleton.2 hagain⟩)

/-- The loop of a do statement has what its body and its test have. -/
theorem doWhileNode (h : Compositional P) (hc : P c) (hb : P b) : P (doWhileNode scope c b) := by
  have hbody : P (.block (some (scope.label .next)) [b]) :=
    h.block _ _ (List.forall_mem_singleton.2 hb)
  have hagain : P (.brIf (scope.label .head) c) := h.brIf _ _ hc
  have hround : P (.block none [.block (some (scope.label .next)) [b],
      .brIf (scope.label .head) c]) :=
    h.block _ _ (List.forall_mem_cons.2 ⟨hbody, List.forall_mem_singleton.2 hagain⟩)
  exact h.block _ _ (List.forall_mem_singleton.2 (h.loop _ _ hround))

/-- The loop of a for statement has what its parts have, as far as they are there. -/
theorem forNode (h : Compositional P) {i c u : Option Node} (hi : ∀ n ∈ i, P n)
    (hc : ∀ n ∈ c, P n) (hu : ∀ n ∈ u, P n) (hb : P b) : P (forNode scope i c u b) := by
  -- What a round does after the test: the body, the update and the jump back.
  have hround : P (.block none (.block (some (scope.label .next)) [b] ::
      (u.toList ++ [.br (scope.label .head)]))) := by
    refine h.block _ _ fun n hn => ?_
    rcases List.mem_cons.1 hn with rfl | hn
    · exact h.block _ _ (List.forall_mem_singleton.2 hb)
    · rcases List.mem_append.1 hn with hn | hn
      · exact hu n (Option.mem_toList.1 hn)
      · obtain rfl := List.mem_singleton.1 hn
        exact h.br _
  refine h.block _ _ fun n hn => ?_
  rcases List.mem_append.1 hn with hn | hn
  · exact hi n (Option.mem_toList.1 hn)
  · obtain rfl := List.mem_singleton.1 hn
    refine h.loop _ _ ?_
    cases c with
    | none => exact hround
    | some c => exact h.ifThen _ _ _ (hc c rfl) hround

end

/-- The blocks of a switch have what their entry and the bodies of the clauses have. -/
theorem nest (h : Compositional P) {cases : List Case} {entry : List Node}
    (hentry : ∀ n ∈ entry, P n) (hbodies : ∀ c ∈ cases, ∀ n ∈ c.body, P n) :
    ∀ n ∈ nest entry cases, P n := by
  -- The first clause is innermost, so it becomes a part of the entry to the others.
  induction cases generalizing entry with
  | nil => exact hentry
  | cons c cs ih =>
    obtain ⟨hc, hcs⟩ := List.forall_mem_cons.1 hbodies
    exact ih (List.forall_mem_cons.2 ⟨h.block _ _ hentry, hc⟩) hcs

/-- The search for the first guard that matches. -/
private theorem selectNode (h : Compositional P) {condition : Nat} {slot : Slot}
    {guards : List Node} (hguards : ∀ g ∈ guards, P g) {position : Nat} {n : Node}
    (hn : selectNode condition slot position guards = .ok n) : P n := by
  induction guards generalizing position n with
  | nil =>
    cases hn
    exact h.const _
  | cons g gs ih =>
    obtain ⟨hg, hgs⟩ := List.forall_mem_cons.1 hguards
    obtain ⟨rest, hrest, -, rfl⟩ := selectNode_cons hn
    exact h.select _ _ _ (h.compare _ _ _ hg) (ih hgs hrest)

/-- A switch has the property if the node that keeps its discriminant has it, and so have its guards
    and the bodies of its clauses. -/
theorem dispatchNode (h : Compositional P) {scope : LabelScope} {condition : Nat} {slot : Slot}
    {value n : Node} {cases : List Case} (hset : P (.localSet condition value))
    (hguards : ∀ c ∈ cases, ∀ g ∈ c.guard, P g) (hbodies : ∀ c ∈ cases, ∀ n ∈ c.body, P n)
    (hn : dispatchNode scope condition slot value cases = .ok n) : P n := by
  obtain ⟨index, hindex, rfl⟩ := dispatchNode_eq_ok hn
  have hindex : P index := by
    refine h.selectNode (fun g hg => ?_) hindex
    -- What the table holds comes from a clause.
    obtain ⟨p, hp, rfl⟩ := List.mem_map.1 hg
    obtain ⟨c, hc, heq⟩ := List.mem_filterMap.1 hp
    obtain ⟨g, hguard, rfl⟩ := Option.map_eq_some_iff.1 heq
    exact hguards c hc g hguard
  refine h.block _ _ (h.nest ?_ hbodies)
  exact List.forall_mem_cons.2 ⟨hset, List.forall_mem_singleton.2 (h.brTable _ _ _ hindex)⟩

end Compositional

end Weir.Lowering
