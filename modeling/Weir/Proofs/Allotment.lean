import Mathlib.Data.List.Nodup
import Weir.Proofs.LocalOwners

/-!
# Allotment of locals

Lowering allots locals to their owners in the order in which it comes to them. `Allots` says of two
states which owners have been allotted locals between them, and which code came out: the code
accesses variables that were in scope before and locals that were allotted, and it has what belongs
to the owners. A second step does not interfere with the owners of the first one, as their locals
can only be accessed through variables in scope, nor with the locals that are allotted later.

## Key results

- `Allots.weave`: the code of two steps of lowering, in whatever order it is laid out
- `Allots.wrap`: control around the code
- `wraps_whileNode`, `wraps_doWhileNode`, `wraps_forNode`, `wraps_nest`: shapes of control
- `Allots.dispatch`: the local of a switch
-/

namespace Weir.Lowering

open Weir.Code (Local Node Slot innermostOf subnodesAll subnodesAll_append)
open Weir.Source (PointerWidth Ty)

variable {w : PointerWidth} {st st₁ st₂ : State} {o : Owner} {os os' : List Owner} {n : Node}
  {ns ms whole parts : List Node}

/-! ## Code that is laid out -/

/-- The second list is in the first one, and the rest of the first one accesses no local. Nodes that
    do nothing may be missing. -/
structure Wraps (whole parts : List Node) : Prop where
  kept : ∀ n ∈ parts, n ∈ whole ∨ n = .nop
  accesses : whole.filter Node.isAccess = parts.filter Node.isAccess

/-- The first list is made up of the other two, in whatever order. -/
structure Weaves (whole ns ms : List Node) : Prop where
  left : ns.Sublist whole
  right : ms.Sublist whole
  perm : whole.Perm (ns ++ ms)

namespace Wraps

/-- What is wrapped twice is wrapped. -/
theorem trans (h : Wraps whole parts) (h' : Wraps parts ns) : Wraps whole ns where
  kept n hn := (h'.kept n hn).elim (h.kept n) .inr
  accesses := h.accesses.trans h'.accesses

/-- The whole has no access that its parts do not have. -/
private theorem filter_eq (h : Wraps whole parts) {p : Node → Bool} (hp : ∀ n, p n → n.isAccess) :
    whole.filter p = parts.filter p :=
  filter_eq_of_imp hp h.accesses

/-- An access in the whole is in one of the parts. -/
private theorem mem_of_isAccess (h : Wraps whole parts) (hn : n ∈ whole) (haccess : n.isAccess) :
    n ∈ parts := by
  have hfilter : n ∈ whole.filter Node.isAccess := List.mem_filter.2 ⟨hn, haccess⟩
  rw [h.accesses] at hfilter
  exact (List.mem_filter.1 hfilter).1

end Wraps

/-- Where nothing is picked, nothing is left. -/
private theorem filter_eq_nil {p : Node → Bool} (h : ∀ n ∈ ns, p n = false) :
    ns.filter p = [] := by
  rw [List.filter_eq_nil_iff]
  intro n hn
  rw [h n hn]
  exact Bool.false_ne_true

namespace Weaves

/-- Lists that follow one another are woven. -/
theorem append (ns ms : List Node) : Weaves (ns ++ ms) ns ms :=
  ⟨List.sublist_append_left .., List.sublist_append_right .., .refl _⟩

/-- Neither of the two lists comes first. -/
theorem symm (h : Weaves whole ns ms) : Weaves whole ms ns :=
  ⟨h.right, h.left, h.perm.trans List.perm_append_comm⟩

/-- A node of the whole is in one of the two lists. -/
private theorem mem (h : Weaves whole ns ms) (hn : n ∈ whole) : n ∈ ns ∨ n ∈ ms :=
  List.mem_append.1 (h.perm.mem_iff.1 hn)

/-- What picks nothing from one of the two picks the same from the whole as from the other. -/
private theorem filter_eq (h : Weaves whole ns ms) {p : Node → Bool} (hms : ∀ m ∈ ms, p m = false) :
    whole.filter p = ns.filter p := by
  have hlength : (whole.filter p).length = (ns.filter p).length := by
    rw [(h.perm.filter p).length_eq, List.filter_append, filter_eq_nil hms, List.append_nil]
  exact ((h.left.filter p).eq_of_length hlength.symm).symm

end Weaves

/-! ## What is allotted -/

/-- The local is declared between the two states. -/
def Between (st st' : State) (i : Nat) : Prop := st.locals.length ≤ i ∧ i < st'.locals.length

/-- Nothing is declared between a state and itself. -/
private theorem not_between_self (i : Nat) : ¬Between st st i :=
  fun hi => absurd hi.2 (Nat.not_lt.2 hi.1)

/-- The variable is one that its owner is declared as. -/
def Owner.Binds (o : Owner) (v : Variable) : Prop :=
  o.index = v.index ∧ match o.origin with
    | .parameter => True
    | .declarator isConst _ => v.isConst = isConst
    | .condition _ => False

/-- Between two states of lowering the locals of the owners are declared, and the nodes are what
    comes out: they access only variables that were in scope before and those locals, and what
    belongs to one of the owners is there. -/
structure Allots (st st' : State) (os : List Owner) (nodes : List Node) : Prop where
  names : st'.locals.map Local.name = st.locals.map Local.name ++ os.map Owner.name
  indices : os.map Owner.index = List.range' st.locals.length os.length
  bindings : ∀ v, st'.bindings.Has v → st.bindings.Has v ∨ ∃ o ∈ os, o.Binds v
  confined : ∀ m ∈ nodes, MayAccess st.bindings (Between st st') m
  owns : ∀ o ∈ os, o.Owns nodes

/-- Binding a name brings one variable into scope. -/
private theorem Variables.has_bind {scopes : Variables} {name : String} {u v : Variable}
    (h : (scopes.bind name v).Has u) : scopes.Has u ∨ u = v := by
  obtain ⟨scope, hscope, name', hu⟩ := h
  rcases Variables.mem_bind hscope hu with rfl | ⟨scope', hscope', hu'⟩
  · exact .inr rfl
  · exact .inl ⟨scope', hscope', name', hu'⟩

/-- A variable in scope has a local that is declared already. -/
theorem State.WellBound.index_lt (h : st.WellBound w) {v : Variable} (hv : st.bindings.Has v) :
    v.index < st.locals.length := by
  obtain ⟨scope, hscope, name, hname⟩ := hv
  obtain ⟨l, hl, -⟩ := Option.map_eq_some_iff.1 (h scope hscope name v hname)
  exact (List.getElem?_eq_some_iff.1 hl).1

/-- Code does not access a local that is declared later and that is none of its own. -/
private theorem MayAccess.not_accesses {own : Nat → Prop} {i : Nat}
    (h : MayAccess st.bindings own n)
    (hst : st.WellBound w) (hi : st.locals.length ≤ i) (hown : ¬own i) :
    n.writes i = false ∧ n.reads i = false := by
  -- The local is neither one of its own nor that of a variable in scope.
  have hnot : ¬(own i ∨ ∃ v, st.bindings.Has v ∧ v.index = i) := by
    rintro (hi | ⟨v, hv, rfl⟩)
    · exact hown hi
    · exact absurd (hst.index_lt hv) (Nat.not_lt.2 hi)
  constructor
  · rw [Bool.eq_false_iff]
    intro hwrites
    exact hnot ((h.of_writes hwrites).imp_right fun ⟨v, hv, hindex, _⟩ => ⟨v, hv, hindex⟩)
  · rw [Bool.eq_false_iff]
    intro hreads
    exact hnot (h.of_reads hreads)

/-- A variable may be accessed as its owner is declared. -/
private theorem Owner.Binds.not_interferes {v : Variable} (h : o.Binds v)
    (hwrites : n.writes o.index → v.isConst = false) : o.interferes n = false := by
  obtain ⟨-, h⟩ := h
  unfold Owner.interferes
  cases horigin : o.origin with
  | parameter => rfl
  | condition switch =>
    rw [horigin] at h
    exact absurd h id
  | declarator isConst sets =>
    rw [horigin] at h
    dsimp only at h ⊢
    cases hn : n.writes o.index with
    | true => rw [← h, hwrites hn]; rfl
    | false => exact Bool.and_false _

namespace Allots

/-- As many locals are declared as there are owners. -/
theorem length_eq (h : Allots st st₁ os ns) :
    st₁.locals.length = st.locals.length + os.length := by
  have hlength := congrArg List.length h.names
  rw [List.length_map, List.length_append, List.length_map, List.length_map] at hlength
  exact hlength

/-- The local of each owner is declared between the two states. -/
private theorem index_between (h : Allots st st₁ os ns) (ho : o ∈ os) : Between st st₁ o.index := by
  have hmem : o.index ∈ os.map Owner.index := List.mem_map_of_mem ho
  rw [h.indices, List.mem_range'_1] at hmem
  have hlength := h.length_eq
  exact ⟨hmem.1, by omega⟩

/-- A local has one owner. -/
private theorem eq_of_index (h : Allots st st₁ os ns) {o' : Owner} (ho : o ∈ os) (ho' : o' ∈ os)
    (hindex : o.index = o'.index) : o = o' := by
  have hnodup : (os.map Owner.index).Nodup := by
    rw [h.indices]
    exact List.nodup_range'
  exact List.inj_on_of_nodup_map hnodup ho ho' hindex

/-- What comes before an owner does not interfere with it. -/
private theorem not_interferes (h : Allots st st₁ os ns) (hst : st.WellBound w) (hn : n ∈ ns)
    (ho : st₁.locals.length ≤ o.index) : o.interferes n = false := by
  have hlength := h.length_eq
  have hown : ¬Between st st₁ o.index := fun hi => absurd hi.2 (Nat.not_lt.2 ho)
  obtain ⟨hwrites, hreads⟩ := (h.confined n hn).not_accesses hst (by omega) hown
  exact Owner.not_interferes hwrites hreads

/-- What comes after an owner does not interfere with it either: the local can be accessed only
    through a variable that is in scope. -/
private theorem not_interferes_after (h : Allots st st₁ os ns) (hst : st.WellBound w) (ho : o ∈ os)
    (hn : MayAccess st₁.bindings (Between st₁ st₂) n) : o.interferes n = false := by
  obtain ⟨hge, hlt⟩ := h.index_between ho
  have hbinds : ∀ v, st₁.bindings.Has v → v.index = o.index → o.Binds v := by
    intro v hv hindex
    rcases h.bindings v hv with hold | ⟨o', ho', hbinds⟩
    · have hbefore := hst.index_lt hold
      omega
    · obtain rfl := h.eq_of_index ho ho' (hindex.symm.trans hbinds.1.symm)
      exact hbinds
  -- Code that comes later reaches an earlier local only through its variable, which is a constant
  -- then or is left alone.
  cases hwrites : n.writes o.index with
  | true =>
    rcases hn.of_writes hwrites with hown | ⟨v, hv, hindex, hconst⟩
    · exact absurd hlt (Nat.not_lt.2 hown.1)
    · exact (hbinds v hv hindex).not_interferes fun _ => hconst
  | false =>
    cases hreads : n.reads o.index with
    | false => exact Owner.not_interferes hwrites hreads
    | true =>
      rcases hn.of_reads hreads with hown | ⟨v, hv, hindex⟩
      · exact absurd hlt (Nat.not_lt.2 hown.1)
      · refine (hbinds v hv hindex).not_interferes fun hn => ?_
        rw [hwrites] at hn
        cases hn

/-- Two steps of lowering: the code may be laid out in whatever order. -/
theorem weave (h : Allots st st₁ os ns) (h' : Allots st₁ st₂ os' ms) (hst : st.WellBound w)
    (hwhole : Weaves whole ns ms) : Allots st st₂ (os ++ os') whole where
  names := by
    rw [h'.names, h.names, List.map_append, List.append_assoc]
  indices := by
    rw [List.map_append, h.indices, h'.indices, h.length_eq, List.length_append,
      List.range'_append_1]
  bindings v hv := by
    rcases h'.bindings v hv with hv | ⟨o, ho, hbinds⟩
    · refine (h.bindings v hv).imp_right ?_
      rintro ⟨o, ho, hbinds⟩
      exact ⟨o, List.mem_append_left _ ho, hbinds⟩
    · exact .inr ⟨o, List.mem_append_right _ ho, hbinds⟩
  confined m hm := by
    have hlength := h.length_eq
    have hlength' := h'.length_eq
    rcases hwhole.mem hm with hm | hm
    · refine (h.confined m hm).mono (fun i hi => ⟨hi.1, ?_⟩) fun v hv => .inl hv
      have hlt := hi.2
      omega
    · refine (h'.confined m hm).mono (fun i hi => ⟨?_, hi.2⟩) fun v hv => ?_
      · have hge := hi.1
        omega
      -- What was declared in the first step is not in scope before it.
      rcases h.bindings v hv with hv | ⟨o, ho, hbinds⟩
      · exact .inl hv
      · obtain ⟨hge, hlt⟩ := h.index_between ho
        rw [hbinds.1] at hge hlt
        exact .inr ⟨hge, by omega⟩
  owns o ho := by
    -- The owners of each step keep what is theirs, because the code of the other step does not
    -- interfere.
    rcases List.mem_append.1 ho with ho | ho
    · have hafter : ∀ m ∈ ms, o.interferes m = false := fun m hm =>
        h.not_interferes_after hst ho (h'.confined m hm)
      exact (h.owns o ho).mono (fun n hn => .inl (hwhole.left.subset hn)) (hwhole.filter_eq hafter)
    · have hbefore : ∀ n ∈ ns, o.interferes n = false := fun n hn =>
        h.not_interferes hst hn (h'.index_between ho).1
      exact (h'.owns o ho).mono (fun m hm => .inl (hwhole.right.subset hm))
        (hwhole.symm.filter_eq hbefore)

/-- Steps one after the other allot what both do. -/
theorem append (h : Allots st st₁ os ns) (h' : Allots st₁ st₂ os' ms) (hst : st.WellBound w) :
    Allots st st₂ (os ++ os') (ns ++ ms) :=
  h.weave h' hst (.append ns ms)

/-- Nodes around the code that access nothing. -/
theorem wrap (h : Allots st st₁ os parts) (hwhole : Wraps whole parts) :
    Allots st st₁ os whole where
  names := h.names
  indices := h.indices
  bindings := h.bindings
  confined m hm := by
    cases haccess : m.isAccess with
    | true => exact h.confined m (hwhole.mem_of_isAccess hm haccess)
    | false => exact .of_not_isAccess haccess
  owns o ho := (h.owns o ho).mono hwhole.kept
    (hwhole.filter_eq fun _ => Owner.isAccess_of_interferes)

/-- Code without owners. -/
theorem code (h : ∀ m ∈ ns, MayAccess st.bindings (Between st st) m) : Allots st st [] ns where
  names := (List.append_nil _).symm
  indices := rfl
  bindings _ hv := .inl hv
  confined := h
  owns _ ho := by cases ho

/-- Code without owners after other code, in whatever order the two are laid out. -/
theorem weave_code (h : Allots st st₁ os ns)
    (hms : ∀ m ∈ ms, MayAccess st₁.bindings (Between st₁ st₁) m) (hst : st.WellBound w)
    (hwhole : Weaves whole ns ms) : Allots st st₁ os whole := by
  have hboth := h.weave (code hms) hst hwhole
  rw [List.append_nil] at hboth
  exact hboth

/-- A variable is allotted the next local, once its initial value is compiled. -/
theorem declare {name : String} {slot : Slot} {t : Ty} {isConst : Bool} {value : Node}
    {reports : List Diagnostic} (hst : st.WellBound w)
    (hvalue : ∀ m ∈ value.subnodes, MayAccess st.bindings (Between st st) m)
    (hst₁ : st₁ = ((st.declared name slot).bound name ⟨st.locals.length, t, isConst⟩).noting
      reports) :
    Allots st st₁
      [⟨st.locals.length, name, .declarator isConst [.localSet st.locals.length value]⟩]
      (subnodesAll [.localSet st.locals.length value]) := by
  have hlocals : st₁.locals = st.locals ++ [⟨name, slot⟩] := by rw [hst₁]; rfl
  have hwrites : ∀ m ∈ value.subnodes, m.writes st.locals.length = false := fun m hm =>
    ((hvalue m hm).not_accesses hst (Nat.le_refl _) (not_between_self _)).1
  -- The new local is at the end, and the value that it is set to has no access to it.
  refine ⟨?_, rfl, fun v hv => ?_, fun m hm => ?_, fun o ho => ?_⟩
  · simp [hlocals]
  · rw [hst₁] at hv
    rcases Variables.has_bind hv with hold | rfl
    · exact .inl hold
    · exact .inr ⟨_, List.mem_singleton.2 rfl, rfl, rfl⟩
  · simp only [subnodesAll, Node.subnodes, List.append_nil, List.mem_cons] at hm
    rcases hm with rfl | hm
    · exact .inl ⟨Nat.le_refl _, by simp [hlocals]⟩
    · exact (hvalue m hm).mono (fun i hi => absurd hi (not_between_self i)) fun v hv => .inl hv
  · obtain rfl := List.mem_singleton.1 ho
    refine ⟨value, rfl, by simp, fun _ => ?_⟩
    simp only [subnodesAll, Node.subnodes, List.append_nil, List.filter_cons,
      filter_eq_nil hwrites]
    simp

/-- A scope of variables that was opened is closed again. -/
theorem closed (h : Allots st.opened st₁ os ns) : Allots st st₁.closed os ns := by
  have hopened : ∀ v, st.opened.bindings.Has v → st.bindings.Has v := by
    rintro v ⟨scope, hscope, name, hv⟩
    rcases List.mem_cons.1 hscope with rfl | hscope
    · cases hv
    · exact ⟨scope, hscope, name, hv⟩
  refine ⟨h.names, h.indices, fun v hv => ?_, fun m hm => ?_, h.owns⟩
  · obtain ⟨scope, hscope, hv⟩ := hv
    have hv : st₁.bindings.Has v := ⟨scope, List.mem_of_mem_tail hscope, hv⟩
    exact (h.bindings v hv).imp_left (hopened v)
  · exact (h.confined m hm).mono (fun _ hi => hi) fun v hv => .inl (hopened v hv)

/-- Scopes of labels have no variables. -/
theorem left {kind : ScopeKind} (h : Allots (st.entered kind) st₁ os ns) :
    Allots st st₁.left os ns :=
  ⟨h.names, h.indices, h.bindings, h.confined, h.owns⟩

end Allots

/-! ## Shapes of control -/

section

variable {scope : LabelScope} {c b : Node}

/-- A sequence wraps its nodes. -/
theorem wraps_sequence : Wraps (sequence ns).subnodes (subnodesAll ns) := by
  unfold sequence
  split
  · exact ⟨by simp, by simp⟩
  · exact ⟨by simp +contextual, by simp⟩
  · exact ⟨by simp +contextual, by simp⟩

/-- A node that may be missing does nothing where it is. -/
theorem wraps_getD {o : Option Node} : Wraps (o.getD .nop).subnodes (subnodesAll o.toList) := by
  cases o with
  | none => exact ⟨by simp, by simp⟩
  | some n => exact ⟨by simp +contextual, by simp⟩

/-- A block wraps its nodes. -/
theorem wraps_block {label : Option Code.Label} :
    Wraps (Node.block label ns).subnodes (subnodesAll ns) :=
  ⟨by simp +contextual, by simp⟩

/-- A test wraps its condition and its branch. -/
theorem wraps_ifThen {slot : Slot} :
    Wraps (Node.ifThen slot c b).subnodes (c.subnodes ++ b.subnodes) :=
  ⟨by simp +contextual, by simp⟩

/-- A choice wraps its condition and both of its branches. -/
theorem wraps_ifElse {slot : Slot} {t : Node} :
    Wraps (Node.ifElse slot c t b).subnodes (c.subnodes ++ (t.subnodes ++ b.subnodes)) :=
  ⟨by simp +contextual, by simp⟩

/-- A body that does nothing is left out. -/
theorem wraps_whileNode : Wraps (whileNode scope c b).subnodes (c.subnodes ++ b.subnodes) := by
  unfold whileNode
  dsimp only
  constructor
  · intro n hn
    split <;>
      simp only [Node.subnodes, subnodesAll, List.mem_append, List.mem_cons] at hn ⊢ <;> tauto
  · split <;> simp

/-- The loop of a do statement wraps its body and its test. -/
theorem wraps_doWhileNode :
    Wraps (doWhileNode scope c b).subnodes (b.subnodes ++ c.subnodes) := by
  unfold doWhileNode
  constructor
  · intro n hn
    simp only [Node.subnodes, subnodesAll, List.mem_append, List.mem_cons] at hn ⊢
    tauto
  · simp

/-- The parts of a `for` loop, of which all but the body may be missing. -/
theorem wraps_forNode {i c u : Option Node} : Wraps (forNode scope i c u b).subnodes
    (subnodesAll i.toList ++ (subnodesAll c.toList ++ (b.subnodes ++ subnodesAll u.toList))) := by
  unfold forNode
  constructor
  · intro n hn
    cases c <;>
      simp only [Node.subnodes, subnodesAll, subnodesAll_append, Option.toList_none,
        Option.toList_some, List.mem_append, List.mem_cons] at hn ⊢ <;> tauto
  · cases c <;> simp

/-- The nest of a switch has its entry first, and then the bodies of the clauses in order. -/
theorem wraps_nest {entry : List Node} {cases : List Case} :
    Wraps (subnodesAll (nest entry cases))
      (subnodesAll entry ++ subnodesAll (cases.flatMap Case.body)) := by
  -- The first clause is innermost, so it joins the entry to the rest.
  induction cases generalizing entry with
  | nil => exact ⟨by simp +contextual, by simp⟩
  | cons c cs ih =>
    have hinner : Wraps
        (subnodesAll (.block (some c.label) entry :: c.body) ++ subnodesAll (cs.flatMap Case.body))
        (subnodesAll entry ++ subnodesAll ((c :: cs).flatMap Case.body)) := by
      constructor
      · intro n hn
        simp only [Node.subnodes, subnodesAll, subnodesAll_append, List.flatMap_cons,
          List.mem_append, List.mem_cons] at hn ⊢
        tauto
      · simp
    exact ih.trans hinner

end

/-! ## Switches -/

section

variable {condition position : Nat} {slot : Slot} {guards : List Node} {index value : Node}
  {cases : List Case}

/-- The code in the clauses of a switch: their guards, and then their bodies. -/
def clauseNodes (cases : List Case) : List Node :=
  subnodesAll ((guardedCases cases).map (·.2)) ++ subnodesAll (cases.flatMap Case.body)

/-- The guard and the body of a clause, and the code of the clauses after it. -/
theorem weaves_clauseNodes {c : Case} {cs : List Case} : Weaves (clauseNodes (c :: cs))
    (subnodesAll c.guard.toList ++ subnodesAll c.body) (clauseNodes cs) := by
  have heq : clauseNodes (c :: cs) =
      (subnodesAll c.guard.toList ++ subnodesAll ((guardedCases cs).map (·.2))) ++
        (subnodesAll c.body ++ subnodesAll (cs.flatMap Case.body)) := by
    unfold clauseNodes guardedCases
    cases hguard : c.guard <;> simp [hguard]
  rw [heq]
  refine ⟨(List.sublist_append_left ..).append (List.sublist_append_left ..),
    (List.sublist_append_right ..).append (List.sublist_append_right ..), ?_⟩
  rw [List.append_assoc, List.append_assoc]
  exact List.perm_append_comm_assoc .. |>.append_left _

/-- The nodes in the search for the first guard that matches, without the comparisons: it reads the
    condition before each of the guards. -/
def selectionNodes (condition : Nat) (slot : Slot) : List Node → List Node
  | [] => []
  | g :: gs => .localGet condition slot :: (g.subnodes ++ selectionNodes condition slot gs)

/-- The selection of a switch wraps the reads of its condition and the values of its clauses. -/
private theorem wraps_selectNode (h : selectNode condition slot position guards = .ok index) :
    Wraps index.subnodes (selectionNodes condition slot guards) := by
  -- The comparisons are nested one in the other, the first one outermost.
  induction guards generalizing position index with
  | nil =>
    cases h
    exact ⟨by simp [selectionNodes], rfl⟩
  | cons g gs ih =>
    obtain ⟨rest, hrest, -, rfl⟩ := selectNode_cons h
    have hrest := ih hrest
    constructor
    · intro n hn
      have hkept := hrest.kept n
      simp only [Node.subnodes, selectionNodes, List.mem_append, List.mem_cons] at hn ⊢
      tauto
    · simp [List.filter_cons, Node.i32Const, selectionNodes, hrest.accesses]

/-- A node of the selection reads the condition or belongs to the value of a clause. -/
private theorem mem_selectionNodes (hn : n ∈ selectionNodes condition slot guards) :
    n = .localGet condition slot ∨ n ∈ subnodesAll guards := by
  induction guards with
  | nil => cases hn
  | cons g gs ih =>
    simp only [selectionNodes, subnodesAll, List.mem_append, List.mem_cons] at hn ⊢
    tauto

/-- The values of the clauses are in the selection. -/
private theorem mem_selectionNodes_of_mem (hn : n ∈ subnodesAll guards) :
    n ∈ selectionNodes condition slot guards := by
  induction guards with
  | nil => cases hn
  | cons g gs ih =>
    simp only [selectionNodes, subnodesAll, List.mem_append, List.mem_cons] at hn ⊢
    tauto

/-- What does not pick the reads of the condition picks from the values of the clauses only. -/
private theorem filter_selectionNodes {p : Node → Bool}
    (hp : p (.localGet condition slot) = false) :
    (selectionNodes condition slot guards).filter p = (subnodesAll guards).filter p := by
  induction guards with
  | nil => rfl
  | cons g gs ih => simp [selectionNodes, hp, ih]

/-- The entry of a switch is innermost, whatever its clauses are. -/
private theorem innermostOf_nest {entry : List Node} :
    innermostOf (nest entry cases) = innermostOf entry := by
  induction cases generalizing entry with
  | nil => rfl
  | cons c cs ih => rw [nest_cons, ih]; rfl

/-- The nodes of a switch, without its blocks and its branch: its condition is set, the guards are
    compared with it, and then there are the bodies of the clauses. -/
private theorem wraps_dispatchNode {scope : LabelScope}
    (hn : dispatchNode scope condition slot value cases = .ok n) :
    ∃ targets fallback index,
      n.innermost = some [.localSet condition value, .brTable targets fallback index] ∧
      Wraps index.subnodes (selectionNodes condition slot ((guardedCases cases).map (·.2))) ∧
      Wraps n.subnodes (.localSet condition value :: (value.subnodes ++
        (selectionNodes condition slot ((guardedCases cases).map (·.2)) ++
          subnodesAll (cases.flatMap Case.body)))) := by
  obtain ⟨index, hindex, rfl⟩ := dispatchNode_eq_ok hn
  have hselect := wraps_selectNode hindex
  refine ⟨_, _, index, congrArg some innermostOf_nest, hselect, wraps_block.trans ?_⟩
  -- What is left is the entry, which sets the condition and jumps by the selection.
  refine wraps_nest.trans ⟨fun m hm => ?_, ?_⟩
  · have hkept := hselect.kept m
    simp only [Node.subnodes, subnodesAll, List.mem_append, List.mem_cons] at hm ⊢
    tauto
  · simp [List.filter_cons, hselect.accesses]

/-- A switch accesses its local, and what its condition and its clauses do. -/
private theorem confined_dispatchNode {scopes : Variables} {own : Nat → Prop} {scope : LabelScope}
    (hn : dispatchNode scope condition slot value cases = .ok n) (hown : own condition)
    (hvalue : ∀ m ∈ value.subnodes, MayAccess scopes own m)
    (hclauses : ∀ m ∈ clauseNodes cases, MayAccess scopes own m) :
    ∀ m ∈ n.subnodes, MayAccess scopes own m := by
  obtain ⟨targets, fallback, index, -, -, hwhole⟩ := wraps_dispatchNode hn
  obtain ⟨hguards, hbodies⟩ := List.forall_mem_append.1 hclauses
  intro m hm
  -- Nodes that access nothing are confined anyway, and the others come from one of the parts.
  cases haccess : m.isAccess with
  | false => exact .of_not_isAccess haccess
  | true =>
    have hm := hwhole.mem_of_isAccess hm haccess
    simp only [List.mem_cons, List.mem_append] at hm
    rcases hm with rfl | hm | hm | hm
    · exact .inl hown
    · exact hvalue m hm
    · rcases mem_selectionNodes hm with rfl | hm
      · exact .inl hown
      · exact hguards m hm
    · exact hbodies m hm

/-- The local of a switch belongs to it, if neither its condition nor its clauses access the
    local. -/
private theorem owns_dispatchNode {scope : LabelScope} {name : String}
    (hn : dispatchNode scope condition slot value cases = .ok n)
    (hvalue : ∀ m ∈ value.subnodes, m.writes condition = false ∧ m.reads condition = false)
    (hclauses : ∀ m ∈ clauseNodes cases, m.writes condition = false ∧ m.reads condition = false) :
    Owner.Owns ⟨condition, name, .condition n⟩ n.subnodes := by
  obtain ⟨targets, fallback, index, hinnermost, hselect, hwhole⟩ := wraps_dispatchNode hn
  obtain ⟨hguards, hbodies⟩ := List.forall_mem_append.1 hclauses
  -- The one write is at the entry, and all reads are in the selection.
  refine ⟨value, targets, fallback, index, n.mem_subnodes_self, hinnermost, ?_, ?_⟩
  · rw [hwhole.filter_eq fun _ => Node.isAccess_of_writes, List.filter_cons, List.filter_append,
      List.filter_append, filter_selectionNodes rfl, filter_eq_nil fun m hm => (hvalue m hm).1,
      filter_eq_nil fun m hm => (hguards m hm).1, filter_eq_nil fun m hm => (hbodies m hm).1]
    simp
  · rw [hwhole.filter_eq fun _ => Node.isAccess_of_reads,
      hselect.filter_eq fun _ => Node.isAccess_of_reads, List.filter_cons, List.filter_append,
      List.filter_append, filter_eq_nil fun m hm => (hvalue m hm).2,
      filter_eq_nil fun m hm => (hbodies m hm).2]
    simp

/-- What belongs to the owners in the clauses of a switch still does in the whole switch. -/
private theorem owns_of_dispatchNode {scope : LabelScope}
    (hn : dispatchNode scope condition slot value cases = .ok n) (h : o.Owns (clauseNodes cases))
    (hvalue : ∀ m ∈ value.subnodes, o.interferes m = false) (hindex : condition ≠ o.index) :
    o.Owns n.subnodes := by
  obtain ⟨targets, fallback, index, -, -, hwhole⟩ := wraps_dispatchNode hn
  refine h.mono (fun m hm => hwhole.kept m ?_) ?_
  · rcases List.mem_append.1 hm with hm | hm
    · simp [mem_selectionNodes_of_mem hm]
    · simp [hm]
  -- The switch itself adds accesses of its own condition only.
  · have hset : o.interferes (.localSet condition value) = false :=
      Owner.not_interferes (by simpa using hindex) rfl
    have hget : o.interferes (.localGet condition slot) = false :=
      Owner.not_interferes rfl (by simpa using hindex)
    rw [hwhole.filter_eq fun _ => Owner.isAccess_of_interferes, List.filter_cons, hset,
      List.filter_append, List.filter_append, filter_eq_nil hvalue, filter_selectionNodes hget,
      clauseNodes, List.filter_append]
    simp

/-- A switch has a local for its condition and then those of its clauses. -/
theorem Allots.dispatch {name : String} {scope : LabelScope}
    (h : Allots (st.declared name slot) st₁ os (clauseNodes cases)) (hst : st.WellBound w)
    (hvalue : ∀ m ∈ value.subnodes, MayAccess st.bindings (Between st st) m)
    (hn : dispatchNode scope st.locals.length slot value cases = .ok n) :
    Allots st st₁ (⟨st.locals.length, name, .condition n⟩ :: os) n.subnodes := by
  have hlength := h.length_eq
  have hdeclared : (st.declared name slot).locals.length = st.locals.length + 1 := by
    simp [State.declared]
  have hclauses : ∀ m ∈ clauseNodes cases,
      MayAccess st.bindings (Between (st.declared name slot) st₁) m := h.confined
  refine ⟨?_, ?_, fun v hv => ?_, ?_, fun o ho => ?_⟩
  · rw [h.names]
    simp [State.declared]
  · rw [List.map_cons, h.indices, hdeclared]
    rfl
  · refine (h.bindings v hv).imp_right ?_
    rintro ⟨o, ho, hbinds⟩
    exact ⟨o, List.mem_cons_of_mem _ ho, hbinds⟩
  · refine confined_dispatchNode hn ⟨Nat.le_refl _, by omega⟩ (fun m hm => ?_) fun m hm => ?_
    · exact (hvalue m hm).mono (fun i hi => absurd hi (not_between_self i)) fun v hv => .inl hv
    · refine (hclauses m hm).mono (fun i hi => ⟨?_, hi.2⟩) fun v hv => .inl hv
      have hge := hi.1
      omega
  -- The first owner is the switch itself, and the others come from its clauses.
  · rcases List.mem_cons.1 ho with rfl | ho
    · refine owns_dispatchNode hn (fun m hm => ?_) fun m hm => ?_
      · exact (hvalue m hm).not_accesses hst (Nat.le_refl _) (not_between_self _)
      · refine (hclauses m hm).not_accesses hst (Nat.le_refl _) fun hi => ?_
        have hge := hi.1
        omega
    · have hge := (h.index_between ho).1
      refine owns_of_dispatchNode hn (h.owns o ho) (fun m hm => ?_) (by omega)
      obtain ⟨hwrites, hreads⟩ :=
        (hvalue m hm).not_accesses hst (i := o.index) (by omega) (not_between_self _)
      exact Owner.not_interferes hwrites hreads

end

end Weir.Lowering
