import Mathlib.Data.List.Forall2
import Weir.Proofs.LowerProgress
import Weir.Proofs.Simulation

/-!
# Runs of switches

The dispatch of a switch branches out of the nest of its blocks to the label of the clause that is
chosen, and from there the nest runs the bodies of this clause and of the clauses after it.

## Key results

- `value_selectNode`: the number that the dispatch computes is that of the clause that is chosen
- `nest_of_branch`, `nest_of_error`: how a nest is entered
- `simulates_nest`: a nest that is entered runs the bodies one after the other
- `simulates_switch`: switches as a whole
-/

namespace Weir.Lowering

open Weir.Code (Label LabelKind Node Slot Value)
open Weir.Machine
open Weir.Machine.Run (catching condition getLocal ofExcept setLocal value)

variable {σ : Type} {call : Nat → List Value → Run σ (Option Value)} {clock : Nat}

/-! ## Choosing a clause -/

/-- The number by which a clause is branched to: the guards before it are counted. Where no clause
    is chosen it is minus one. -/
def tableIndex (position : Nat) (cases : List Case) : Option Nat → BitVec 32
  | none => BitVec.ofInt 32 (-1)
  | some k => BitVec.ofInt 32 (position + (guardedCases (cases.take k)).length : Nat)

/-- A default clause is not counted. -/
private theorem tableIndex_skipped {c : Case} (h : c.guard = none) (position : Nat)
    (cs : List Case) (k : Option Nat) :
    tableIndex position (c :: cs) (k.map (· + 1)) = tableIndex position cs k := by
  cases k <;> simp [tableIndex, guardedCases, h]

/-- A clause with a guard takes the first place in the table. -/
private theorem tableIndex_counted {c : Case} {g : Node} (h : c.guard = some g) (position : Nat)
    (cs : List Case) (k : Option Nat) :
    tableIndex position (c :: cs) (k.map (· + 1)) = tableIndex (position + 1) cs k := by
  cases k with
  | none => rfl
  | some k => simp [tableIndex, guardedCases, h, Nat.add_assoc, Nat.add_comm 1]

/-- The search for the first guard that matches yields the number of the clause that is chosen. The
    induction is on the clauses; default clauses do not take part in the search. -/
theorem value_selectNode {index : Nat} {slot : Slot} {cases : List Case} {position : Nat} {n : Node}
    (h : selectNode index slot position ((guardedCases cases).map (·.2)) = .ok n) :
    value (evalNode call clock n) = (do
      let k ← choose (evalNode call clock) index (cases.map Case.guard)
      pure (.i32 (tableIndex position cases k))) := by
  induction cases generalizing position n with
  | nil =>
    cases h
    simp [evalNode, value, choose, tableIndex, Node.i32Const]
  | cons c cs ih =>
    cases hguard : c.guard with
    | none =>
      -- Only the number of the clause goes up.
      have hskip : guardedCases (c :: cs) = guardedCases cs := by
        simp [guardedCases, hguard]
      rw [hskip] at h
      rw [ih h, List.map_cons, hguard]
      simp only [choose, bind_assoc, pure_bind, tableIndex_skipped hguard]
    | some g =>
      have hcons : guardedCases (c :: cs) = (c.label, g) :: guardedCases cs := by
        simp [guardedCases, hguard]
      rw [hcons] at h
      obtain ⟨rest, hrest, -, rfl⟩ := selectNode_cons h
      -- The search picks its own position or what the search after it picks.
      have hpick (equal : Bool) (k : Option Nat) :
          (if equal then Value.i32 (BitVec.ofInt 32 position)
            else .i32 (tableIndex (position + 1) cs k)) =
            .i32 (tableIndex position (c :: cs) (if equal then some 0 else k.map (· + 1))) := by
        cases equal with
        | true => simp [tableIndex, guardedCases]
        | false => simp [tableIndex_counted hguard]
      simp only [evalNode, Node.i32Const, List.map_cons, hguard, choose, Run.value_bind,
        Run.condition_bind, Run.value_pure_some, ih hrest, bind_assoc, pure_bind, hpick]

/-- A search that can be numbered is not longer than a table. -/
theorem length_le_of_selectNode {index : Nat} {slot : Slot} {position : Nat}
    {guards : List Node} {n : Node} (h : selectNode index slot position guards = .ok n) :
    guards.length ≤ tableLimit - position := by
  induction guards generalizing position n with
  | nil => exact Nat.zero_le _
  | cons g gs ih =>
    obtain ⟨rest, hrest, hlt, -⟩ := selectNode_cons h
    have hlen := ih hrest
    rw [List.length_cons]
    omega

/-- Only clauses with a guard are chosen, and guards end early only in ways that nothing catches. -/
private theorem keeps_choose (hcall : CallsAbort call) {index : Nat} {tests : List (Option Node)}
    (htests : ∀ g, some g ∈ tests → g.isPlain) :
    Keeps Unlimited (choose (evalNode call clock) index tests)
      (fun k => ∀ i, k = some i → ∃ g, tests[i]? = some (some g)) (·.isAbort) := by
  induction tests with
  | nil => exact keeps_pure fun i h => by cases h
  | cons test tests ih =>
    have hrest := ih fun g hg => htests g (List.mem_cons_of_mem _ hg)
    -- A clause that is chosen among the later ones has its guard there.
    have hlater {k : Option Nat} (hk : ∀ i, k = some i → ∃ g, tests[i]? = some (some g)) :
        ∀ i, k.map (· + 1) = some i → ∃ g, (test :: tests)[i]? = some (some g) := by
      intro i hi
      obtain ⟨j, hj, rfl⟩ := Option.map_eq_some_iff.1 hi
      simpa using hk j hj
    cases test with
    | none => exact hrest.bind fun k hk => keeps_pure (hlater hk)
    | some g =>
      have hguard : Aborts (value (evalNode call clock g)) :=
        (aborts_of_isPlain hcall (htests g List.mem_cons_self)).value
      have hequal (r : Value) : Aborts (condition (pure (some r) : Run σ (Option Value))) :=
        Aborts.condition (keeps_pure trivial)
      refine hrest.bind fun k hk => aborts_getLocal.bind fun v _ => hguard.bind fun w _ => ?_
      refine aborts_ofExcept.bind fun r _ => (hequal r).bind fun equal _ => keeps_pure ?_
      cases equal with
      | false => exact hlater hk
      | true =>
        intro i hi
        cases hi
        exact ⟨g, rfl⟩

/-- The entry of a branch table for a clause with a guard is the label of the clause. -/
private theorem guardedCases_getElem? {cases : List Case} {k : Nat} {c : Case} {g : Node}
    (hk : cases[k]? = some c) (hguard : c.guard = some g) :
    (guardedCases cases)[(guardedCases (cases.take k)).length]? = some (c.label, g) := by
  obtain ⟨hlt, rfl⟩ := List.getElem?_eq_some_iff.1 hk
  -- The clauses with a guard before this one come before it in the table as well.
  have hsplit : guardedCases cases =
      guardedCases (cases.take k) ++ (cases[k].label, g) :: guardedCases (cases.drop (k + 1)) := by
    calc guardedCases cases
        = guardedCases (cases.take k ++ cases[k] :: cases.drop (k + 1)) := by
          rw [← List.drop_eq_getElem_cons hlt, List.take_append_drop]
      _ = _ := by
          simp only [guardedCases, List.filterMap_append, List.filterMap_cons, hguard,
            Option.map_some]
  rw [hsplit, List.getElem?_append_right (Nat.le_refl _), Nat.sub_self]
  rfl

/-- A branch table leads to the clause that is chosen. -/
private theorem table_chosen {cases : List Case} {k : Nat} {c : Case} {g : Node} {fallback : Label}
    (hlen : (guardedCases cases).length ≤ tableLimit) (hk : cases[k]? = some c)
    (hguard : c.guard = some g) :
    ((guardedCases cases).map (·.1))[(tableIndex 0 cases (some k)).toNat]?.getD fallback =
      c.label := by
  have hentry := guardedCases_getElem? hk hguard
  obtain ⟨hlt, -⟩ := List.getElem?_eq_some_iff.1 hentry
  have hindex : (tableIndex 0 cases (some k)).toNat = (guardedCases (cases.take k)).length := by
    simp only [tableIndex]
    rw [BitVec.ofInt_natCast, BitVec.toNat_ofNat, Nat.zero_add, Nat.mod_eq_of_lt]
    unfold tableLimit at hlen
    omega
  rw [hindex, List.getElem?_map, hentry]
  rfl

/-- A branch table falls back where no clause is chosen. -/
private theorem table_fallback {cases : List Case} {fallback : Label}
    (hlen : (guardedCases cases).length ≤ tableLimit) :
    ((guardedCases cases).map (·.1))[(tableIndex 0 cases none).toNat]?.getD fallback =
      fallback := by
  -- Minus one is past the end of every table.
  have hindex : (tableIndex 0 cases none).toNat = 2 ^ 32 - 1 := by
    rfl
  rw [hindex, List.getElem?_eq_none]
  · rfl
  · unfold tableLimit at hlen
    rw [List.length_map]
    omega

/-! ## Nests of blocks -/

/-- A clause around a dispatch: what follows its block is its body. -/
theorem evalAll_clause (c : Case) (entry : List Node) :
    evalAll call clock none (.block (some c.label) entry :: c.body) =
      catching c.label (evalAll call clock none entry) >>= fun v =>
        evalAll call clock v c.body := by
  simp only [evalAll, evalNode]

section

variable {cases : List Case} {entry entry' : List Node} {s s' : Machine.State σ}

/-- What a nest does depends on what its dispatch does. -/
private theorem nest_congr
    (h : evalAll call clock none entry s = evalAll call clock none entry' s') :
    evalAll call clock none (nest entry cases) s =
      evalAll call clock none (nest entry' cases) s' := by
  induction cases generalizing entry entry' with
  | nil => exact h
  | cons c cs ih =>
    refine ih ?_
    rw [evalAll_clause, evalAll_clause, Run.bind_apply, Run.bind_apply, Run.catching_congr h]

/-- A dispatch that ends other than by branching to a clause ends the nest likewise. -/
theorem nest_of_error {e : Exit} (h : evalAll call clock none entry s = .error e s')
    (he : ∀ c ∈ cases, e ≠ .branch c.label) :
    evalAll call clock none (nest entry cases) s = .error e s' := by
  induction cases generalizing entry with
  | nil => exact h
  | cons c cs ih =>
    obtain ⟨hc, hcs⟩ := List.forall_mem_cons.1 he
    refine ih ?_ hcs
    rw [evalAll_clause, Run.bind_apply, Run.catching_of_error h hc]

/-- A dispatch that branches to a clause leads to the body of the clause, and into the nest of the
    clauses after it. The induction is on the clauses before it, whose labels are different. -/
theorem nest_of_branch {k : Nat} {c : Case} (hnodup : (cases.map Case.label).Nodup)
    (hk : cases[k]? = some c)
    (h : evalAll call clock none entry s = .error (.branch c.label) s') :
    evalAll call clock none (nest entry cases) s =
      evalAll call clock none (nest c.body (cases.drop (k + 1))) s' := by
  induction cases generalizing entry k with
  | nil => cases hk
  | cons c' cs ih =>
    obtain ⟨hlabel, hnodup⟩ := List.nodup_cons.1 hnodup
    cases k with
    | zero =>
      cases hk
      show evalAll call clock none (nest (.block (some c.label) entry :: c.body) cs) s =
        evalAll call clock none (nest c.body cs) s'
      refine nest_congr ?_
      rw [evalAll_clause, Run.bind_apply, Run.catching_of_branch h]
    | succ k =>
      -- The block of an earlier clause does not catch the branch.
      have hmem : c ∈ cs := List.mem_of_getElem? hk
      have hne : c.label ≠ c'.label := fun heq => hlabel (heq ▸ List.mem_map_of_mem hmem)
      refine ih hnodup hk ?_
      rw [evalAll_clause, Run.bind_apply, Run.catching_of_error h (by simpa using hne)]

end

/-- Bodies of clauses that agree with the clauses as they are lowered. -/
abbrev BodiesSimulate (call : Nat → List Value → Run σ (Option Value)) (clock : Nat)
    (labels : LabelStack) : List (Run σ Outcome) → List Case → Prop :=
  List.Forall₂ fun f c => ∀ v, Simulates labels f (evalAll call clock v c.body)

/-- Statements that run one after the other may be grouped in any way. -/
private theorem andThen_assoc (f g h : Run σ Outcome) :
    andThen (andThen f g) h = andThen f (andThen g h) := by
  unfold andThen
  rw [bind_assoc]
  refine congrArg (f >>= ·) (funext fun o => ?_)
  cases o <;> simp

/-- A nest that is entered runs the bodies of its clauses one after the other. The induction is on
    the clauses, whose blocks no jump of a body leads to. -/
theorem simulates_nest {labels : LabelStack} {f : Run σ Outcome} {fs : List (Run σ Outcome)}
    {entry : List Node} {cases : List Case}
    (hf : Simulates labels f (evalAll call clock none entry))
    (hfs : BodiesSimulate call clock labels fs cases)
    (hkinds : ∀ c ∈ cases, c.label.kind ≠ .exit ∧ c.label.kind ≠ .next) :
    Simulates labels (andThen f (fallThrough fs)) (evalAll call clock none (nest entry cases)) := by
  induction hfs generalizing f entry with
  | nil =>
    have hpure : andThen f (fallThrough []) = f := by
      unfold andThen fallThrough
      refine (congrArg (f >>= ·) (funext fun o => ?_)).trans (bind_pure f)
      cases o <;> rfl
    rw [hpure]
    exact hf
  | @cons f' c fs cs hbody hrest ih =>
    obtain ⟨⟨hexit, hnext⟩, hkinds⟩ := List.forall_mem_cons.1 hkinds
    -- What runs inside the block of the next clause runs the same without it.
    have hblock : Simulates labels f (catching c.label (evalAll call clock none entry)) :=
      hf.catching (fun h => hexit (breakTarget_kind h)) fun h => hnext (continueTarget_kind h)
    rw [nest_cons, fallThrough, ← andThen_assoc]
    refine ih ?_ hkinds
    rw [evalAll_clause]
    exact hblock.andThen hbody

/-! ## Switches -/

/-- The label leads to the given clause, or to the end of the switch where there is none. -/
def LeadsTo (scope : LabelScope) (cases : List Case) (label : Label) : Option Nat → Prop
  | none => label = scope.label .exit
  | some k => ∃ c, cases[k]? = some c ∧ c.label = label

/-- The first clause without a guard is the default clause. -/
theorem lowerClauses_leadsTo {fc : FunctionContext} {scope : LabelScope} {compared : Source.Ty}
    {clauses : List Source.Clause} {ordinal : Nat} {st st' : State} {cases : List Case}
    (h : lowerClauses fc scope compared ordinal false clauses st = .ok cases st') :
    LeadsTo scope cases (fallbackLabel scope cases)
      ((cases.map Case.guard).findIdx? Option.isNone) := by
  induction clauses generalizing ordinal st cases with
  | nil =>
    obtain ⟨rfl, -⟩ := lowerClauses_nil h
    rfl
  | cons clause clauses ih =>
    obtain ⟨test, body, span⟩ := clause
    obtain ⟨r, st₁, nodes, st₂, rest, htest, hbody, hrest, rfl⟩ := lowerClauses_cons h
    rcases lowerTest_eq_ok htest with ⟨e, rfl, rfl, -⟩ | ⟨rfl, -, rfl, -⟩ | ⟨-, hdefault, -⟩
    · -- A guarded clause changes nothing but the number of the default clause.
      have hfallback (g : Option Node) :
          fallbackLabel scope (⟨scope.label (.clause ordinal), g, nodes⟩ :: rest) =
            fallbackLabel scope rest := by
        simp [fallbackLabel, LabelScope.label]
      have hlater := ih hrest
      rw [List.map_cons, List.findIdx?_cons]
      cases hfind : (rest.map Case.guard).findIdx? Option.isNone with
      | none =>
        rw [hfind] at hlater
        exact (hfallback _).trans hlater
      | some k =>
        rw [hfind] at hlater
        obtain ⟨c, hc, hlabel⟩ := hlater
        exact ⟨c, hc, hlabel.trans (hfallback _).symm⟩
    · refine ⟨_, rfl, ?_⟩
      simp [fallbackLabel, LabelScope.label]
    · cases hdefault

/-- The table of a switch leads to the clause that is chosen, or else to the default clause. -/
theorem table_leadsTo {scope : LabelScope} {cases : List Case} {k default? : Option Nat}
    (hlen : (guardedCases cases).length ≤ tableLimit)
    (hk : ∀ i, k = some i → ∃ g, (cases.map Case.guard)[i]? = some (some g))
    (hdefault : LeadsTo scope cases (fallbackLabel scope cases) default?) :
    LeadsTo scope cases (((guardedCases cases).map (·.1))[(tableIndex 0 cases k).toNat]?.getD
      (fallbackLabel scope cases)) (k.or default?) := by
  cases k with
  | none =>
    rw [table_fallback hlen]
    exact hdefault
  | some i =>
    obtain ⟨g, hg⟩ := hk i rfl
    rw [List.getElem?_map] at hg
    obtain ⟨c, hc, hguard⟩ := Option.map_eq_some_iff.1 hg
    exact ⟨c, hc, (table_chosen hlen hc hguard).symm⟩

/-- What a switch does before it branches: it sets its local and chooses a clause. -/
def dispatchRun (run : Node → Run σ (Option Value)) (index : Nat) (discriminant : Node)
    (tests : List (Option Node)) : Run σ (Option Nat) := do
  let v ← value (run discriminant)
  setLocal index v
  choose run index tests

/-- The dispatch aborts or chooses a clause with a guard. -/
private theorem keeps_dispatchRun (hcall : CallsAbort call) {index : Nat} {discriminant : Node}
    {tests : List (Option Node)} (hdiscriminant : discriminant.isPlain)
    (htests : ∀ g, some g ∈ tests → g.isPlain) :
    Keeps Unlimited (dispatchRun (evalNode call clock) index discriminant tests)
      (fun k => ∀ i, k = some i → ∃ g, tests[i]? = some (some g)) (·.isAbort) := by
  have hvalue : Aborts (value (evalNode call clock discriminant)) :=
    (aborts_of_isPlain hcall hdiscriminant).value
  exact hvalue.bind fun v _ => aborts_setLocal.bind fun _ _ => keeps_choose hcall htests

/-- The code of a dispatch ends by branching over its table. -/
theorem evalAll_dispatch (call : Nat → List Value → Run σ (Option Value)) (clock : Nat)
    {index : Nat} {slot : Slot} (discriminant : Node) {n : Node} {cases : List Case}
    (fallback : Label)
    (h : selectNode index slot 0 ((guardedCases cases).map (·.2)) = .ok n) :
    evalAll call clock none [.localSet index discriminant,
        .brTable ((guardedCases cases).map (·.1)) fallback n] = (do
      let k ← dispatchRun (evalNode call clock) index discriminant (cases.map Case.guard)
      throw (.branch (((guardedCases cases).map (·.1))[(tableIndex 0 cases k).toNat]?.getD
        fallback))) := by
  simp only [evalAll, evalNode, dispatchRun, value_selectNode h, Value.toI32, Run.ofExcept,
    bind_assoc, pure_bind, bind_pure]

section

variable {id next index : Nat} {outer : LabelStack} {cases : List Case}
  {bodies : List (Run σ Outcome)}

/-- A switch that branches to a label runs the bodies from the clause on that the label leads to. -/
private theorem agrees_of_leadsTo {entry : List Node} {label : Label} {k : Option Nat}
    {s s' : Machine.State σ} (hs' : Unlimited s')
    (hentry : evalAll call clock none entry s = .error (.branch label) s')
    (hleads : LeadsTo ⟨id, .switch⟩ cases label k) (hnodup : (cases.map Case.label).Nodup)
    (hkinds : ∀ c ∈ cases, c.label.kind ≠ .exit ∧ c.label.kind ≠ .next)
    (hbodies : BodiesSimulate call clock ⟨⟨id, .switch⟩ :: outer.scopes, next⟩ bodies cases) :
    Agrees outer (switchRun (pure k) none bodies s')
      (catching (LabelScope.label ⟨id, .switch⟩ .exit)
        (evalAll call clock none (nest entry cases)) s) := by
  cases k with
  | none =>
    -- The branch goes through the nest to the block of the exit.
    obtain rfl := hleads
    have hnest := nest_of_error hentry fun c hc heq => by
      have hlabel := Exit.branch.inj heq
      exact (hkinds c hc).1 (by rw [← hlabel]; rfl)
    rw [Run.catching_of_branch hnest]
    exact .normal hs'
  | some k =>
    obtain ⟨c, hc, rfl⟩ := hleads
    obtain ⟨hlt, hget⟩ := List.getElem?_eq_some_iff.1 hc
    -- The clause that is entered is the first one of those that are left.
    have hrest := List.forall₂_drop k hbodies
    rw [List.drop_eq_getElem_cons hlt, hget] at hrest
    obtain ⟨f, fs, hbody, hfs, hdrop⟩ := List.forall₂_cons_right_iff.1 hrest
    have hlater : ∀ c ∈ cases.drop (k + 1), c.label.kind ≠ .exit ∧ c.label.kind ≠ .next :=
      fun c hc => hkinds c (List.mem_of_mem_drop hc)
    have hrun := (simulates_nest (hbody none) hfs hlater).breakable
    rw [Run.catching_congr (nest_of_branch hnodup hc hentry)]
    show Agrees outer (breakable (fallThrough (bodies.drop k)) s') _
    rw [hdrop, fallThrough]
    exact hrun s' hs'

/-- A switch runs the bodies from the chosen clause on, if they and the clauses agree. -/
theorem simulates_switch (hcall : CallsAbort call) {slot : Slot} {discriminant n : Node}
    (hdiscriminant : discriminant.isPlain)
    (htests : ∀ g, some g ∈ cases.map Case.guard → g.isPlain)
    (hnodup : (cases.map Case.label).Nodup)
    (hkinds : ∀ c ∈ cases, c.label.kind ≠ .exit ∧ c.label.kind ≠ .next) {default? : Option Nat}
    (hdefault : LeadsTo ⟨id, .switch⟩ cases (fallbackLabel ⟨id, .switch⟩ cases) default?)
    (hbodies : BodiesSimulate call clock ⟨⟨id, .switch⟩ :: outer.scopes, next⟩ bodies cases)
    (h : dispatchNode ⟨id, .switch⟩ index slot discriminant cases = .ok n) :
    Simulates outer
      (do
        let v ← value (evalNode call clock discriminant)
        setLocal index v
        switchRun (choose (evalNode call clock) index (cases.map Case.guard)) default? bodies)
      (evalNode call clock n) := by
  obtain ⟨select, hselect, rfl⟩ := dispatchNode_eq_ok h
  have hlen := length_le_of_selectNode hselect
  rw [List.length_map, Nat.sub_zero] at hlen
  have hkeeps : Keeps Unlimited
      (dispatchRun (evalNode call clock) index discriminant (cases.map Case.guard))
      (fun k => ∀ i, k = some i → ∃ g, (cases.map Case.guard)[i]? = some (some g)) (·.isAbort) :=
    keeps_dispatchRun hcall hdiscriminant htests
  -- The execution makes the dispatch first, and then goes on with the clause that is chosen.
  have hexec : (do
      let v ← value (evalNode call clock discriminant)
      setLocal index v
      switchRun (choose (evalNode call clock) index (cases.map Case.guard)) default? bodies) =
      dispatchRun (evalNode call clock) index discriminant (cases.map Case.guard) >>= fun k =>
        switchRun (pure (k.or default?)) none bodies := by
    simp only [dispatchRun, switchRun, bind_assoc, pure_bind, Option.or_none]
  intro s hs
  have hcode := congrFun (evalAll_dispatch call clock discriminant
    (fallbackLabel ⟨id, .switch⟩ cases) hselect) s
  rw [Run.bind_apply] at hcode
  rw [hexec, Run.bind_apply]
  show Agrees outer _ (catching _ (evalAll call clock none (nest _ cases)) s)
  cases hrun : dispatchRun (evalNode call clock) index discriminant (cases.map Case.guard) s with
  | error e s' =>
    have habort := (hkeeps.of_error hs hrun).2
    rw [hrun] at hcode
    have hother (label : Label) : e ≠ .branch label := by
      rintro rfl
      cases habort
    rw [Run.catching_of_error (nest_of_error hcode fun c _ => hother c.label) (hother _)]
    exact .abort habort
  | ok k s' =>
    obtain ⟨hs', hk⟩ := hkeeps.of_ok hs hrun
    rw [hrun] at hcode
    exact agrees_of_leadsTo hs' hcode (table_leadsTo hlen hk hdefault) hnodup hkinds hbodies

end

end Weir.Lowering
