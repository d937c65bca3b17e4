import Weir.Proofs.Causes
import Weir.Proofs.Declarations
import Weir.Proofs.QuietCode

/-!
# Missing values

A run traps over a missing value where a value is asked for and there is none. In clean code every
operand is typed at a slot that holds values, with one exception: what is written to a local and
what is passed to a parameter has the type of the local or parameter, and this may be `void`. Only
parameters can have that type, since variables are never given it.

A conversion to `void` is taken for one that cannot change the value, so an argument for a `void`
parameter is dropped, and not reported. The call then traps for want of it.

## Key results

- `delivers_of_isClean`: typed clean code never misses a value, if locals and parameters have values
- `lowerProgram_delivers`: a program without reports and without `void` parameters never traps over
  a missing value
- `dropped_argument_missing`: one with a `void` parameter may do so, though nothing is reported
-/

namespace Weir.Code

private theorem Value.slot_ne_none (v : Value) : v.slot ≠ .none := by
  cases v <;> simp [Value.slot]

/-- An operator has no operand without a value. -/
private theorem UnaryOp.ne_none_of_accepts {op : UnaryOp} {s : Slot} (h : op.accepts s) :
    s ≠ .none := by
  rintro rfl
  cases op <;> cases h

private theorem BinaryOp.ne_none_of_accepts {op : BinaryOp} {s : Slot} (h : op.accepts s) :
    s ≠ .none := by
  rintro rfl
  cases op <;> cases h

/-- A conversion starts from a number. -/
private theorem Conversion.operand_ne_none (c : Conversion) : c.operand ≠ .none := by
  cases c with
  | truncate target source signed => cases source <;> simp [operand, FloatSlot.slot]
  | convert target source signed => cases source <;> simp [operand, IntSlot.slot]
  | _ => simp [operand]

/-- A constant has a value. -/
private theorem Node.Typed.ne_none_of_isConst {Γ : TypeContext} {labels : List Label} {n : Node}
    {s : Slot} (h : n.Typed Γ labels s) (hn : n.isConst) : s ≠ .none := by
  cases h with
  | const => exact Value.slot_ne_none _
  | _ => cases hn

/-- Every local and every parameter of a callee holds a value. -/
structure TypeContext.Valued (Γ : TypeContext) : Prop where
  locals : Slot.none ∉ Γ.locals
  params : ∀ id params result, Γ.callee? id = some (params, result) → Slot.none ∉ params

/-- A local of a valued context has a slot. -/
private theorem TypeContext.Valued.ne_none {Γ : TypeContext} (h : Γ.Valued) {index : Nat} {s : Slot}
    (hlocal : Γ.locals[index]? = some s) : s ≠ .none := by
  rintro rfl
  exact h.locals (List.mem_of_getElem? hlocal)

/-- The code of a function is clean, but for `unreachable` nodes among its statements. -/
def Function.Clean (f : Function) : Prop :=
  ∃ nodes, (∀ n ∈ nodes, n.isClean f.result ∨ n = .unreachable) ∧ f.body = .block none nodes

end Weir.Code

namespace Weir.Machine

open Weir.Code

variable {σ α β : Type}

/-! ## Nodes -/

/-- Started in `s`, the run does not trap over a missing value. -/
abbrev Delivers (run : Run σ α) (s : State σ) : Prop :=
  Explains .missingValue (fun _ => False) run s

section

variable {call : Nat → List Value → Run σ (Option Value)} {clock : Nat} {Γ : TypeContext}

/-- Calls of callees that the context types do not trap over a missing value. -/
def CallsDeliver (call : Nat → List Value → Run σ (Option Value)) (Γ : TypeContext) : Prop :=
  ∀ id params result args s, Γ.callee? id = some (params, result) →
    args.map Value.slot = params → Delivers (call id args) s

/-- A typed operand is there if its slot holds values, and what follows starts with its value. -/
private theorem Delivers.operand {run : Run σ (Option Value)} {slot : Slot}
    {f : Value → Run σ β} {s : State σ} (h : Delivers run s) (hkeeps : KeepsSlots Γ run slot)
    (hslot : slot ≠ .none) (hs : HasSlots Γ.locals s)
    (hf : ∀ v t, v.slot = slot → HasSlots Γ.locals t → Delivers (f v) t) :
    Delivers (Run.value run >>= f) s := by
  have hthere : ∀ t, run s ≠ .ok none t := by
    intro t ht
    have hnone : resultSlot none = slot := (hkeeps.of_ok hs ht).2
    exact hslot hnone.symm
  refine (Explains.value h fun _ => hthere).bind fun v t hv => ?_
  obtain ⟨ht, hvslot⟩ := (Keeps.value hkeeps rfl).of_ok hs hv
  exact hf v t hvslot ht

/-- A condition in the slot of truth values has the value that is tested. -/
private theorem Delivers.test {run : Run σ (Option Value)} {f : Bool → Run σ β} {s : State σ}
    (h : Delivers run s) (hkeeps : KeepsSlots Γ run .i32) (hs : HasSlots Γ.locals s)
    (hf : ∀ b t, HasSlots Γ.locals t → Delivers (f b) t) :
    Delivers (Run.condition run >>= f) s := by
  have hthere : ∀ t, run s ≠ .ok none t := by
    intro t ht
    have hnone : resultSlot none = .i32 := (hkeeps.of_ok hs ht).2
    cases hnone
  have hcond : Keeps (HasSlots Γ.locals) (Run.condition run) (fun _ => True)
      (Exit.Fits Γ.result) :=
    Keeps.condition hkeeps rfl fun _ hv hne => absurd hv hne
  refine (Explains.condition rfl h fun _ => hthere).bind fun b t hb => ?_
  exact hf b t (hcond.of_ok hs hb).1

mutual

/-- Typed clean code does not trap over a missing value, if locals and parameters have values. The
    induction is on the node; that an operand is there is known from its slot. -/
theorem delivers_of_isClean (hcall : CallsKeepSlots call Γ) (hcalls : CallsDeliver call Γ)
    (hΓ : Γ.Valued) {labels : List Label} {slot : Slot} : (n : Node) → n.Typed Γ labels slot →
    n.isClean Γ.result → ∀ {s : State σ}, HasSlots Γ.locals s →
    Delivers (evalNode call clock n) s
  | .nop, _, _, s, _ => by simp only [evalNode]; exact .pure _
  | .unreachable, _, hclean, s, _ => by cases hclean
  | .const v, _, _, s, _ => by simp only [evalNode]; exact .pure _
  | .ret, _, _, s, _ => by simp only [evalNode]; exact .throw (by simp)
  | .br label, _, _, s, _ => by simp only [evalNode]; exact .throw (by simp)
  | .localGet index _, _, _, s, _ => by
    simp only [evalNode]
    exact (Explains.getLocal rfl).bind fun _ _ _ => .pure _
  | .block none children, .sequence h, hclean, s, hs => by
    have hchildren := Node.isClean_block.1 hclean
    simp only [evalNode]
    exact delivers_of_cleanAll hcall hcalls hΓ none children h
      (fun n hn => .inl (hchildren n hn)) hs
  | .block (some label) children, .block _ h, hclean, s, hs => by
    have hchildren := Node.isClean_block.1 hclean
    simp only [evalNode]
    exact (delivers_of_cleanAll hcall hcalls hΓ none children h
      (fun n hn => .inl (hchildren n hn)) hs).catching
  | .loop label body, .loop _ h, hclean, s, hs => by
    have hkeeps : KeepsSlots Γ (evalNode call clock body) slot := keeps_of_typed hcall body h
    simp only [evalNode]
    have hspend : Keeps (HasSlots Γ.locals) (Run.spend : Run σ Unit) (fun _ => True)
        (Exit.Fits Γ.result) := keeps_spend (fun _ _ hs _ => hs) rfl
    -- Every round starts with the slots the loop started with.
    refine .repeating rfl clock fun t ht => ?_
    exact delivers_of_isClean hcall hcalls hΓ body h hclean (ht.invariant hkeeps hspend hs)
  | .ifThen _ c t, .ifThen hc ht, hclean, s, hs => by
    obtain ⟨hcclean, htclean⟩ := Bool.and_eq_true_iff.1 hclean
    have hcond := delivers_of_isClean hcall hcalls hΓ c hc hcclean hs
    simp only [evalNode]
    refine hcond.test (keeps_of_typed hcall c hc) hs fun b u hu => ?_
    cases b with
    | true => exact delivers_of_isClean hcall hcalls hΓ t ht htclean hu
    | false => exact .pure _
  | .ifElse _ c t e, .ifElse hc ht he, hclean, s, hs => by
    obtain ⟨hcclean, hclean⟩ := Bool.and_eq_true_iff.1 hclean
    obtain ⟨htclean, heclean⟩ := Bool.and_eq_true_iff.1 hclean
    have hcond := delivers_of_isClean hcall hcalls hΓ c hc hcclean hs
    simp only [evalNode]
    refine hcond.test (keeps_of_typed hcall c hc) hs fun b u hu => ?_
    cases b with
    | true => exact delivers_of_isClean hcall hcalls hΓ t ht htclean hu
    | false => exact delivers_of_isClean hcall hcalls hΓ e he heclean hu
  | .select c t e, .select ht he hc, hclean, s, hs => by
    obtain ⟨hconst, hclean⟩ := Bool.and_eq_true_iff.1 hclean
    obtain ⟨hcclean, hclean⟩ := Bool.and_eq_true_iff.1 hclean
    obtain ⟨htclean, heclean⟩ := Bool.and_eq_true_iff.1 hclean
    -- Both choices lie in the slot of a constant.
    have hslot := ht.ne_none_of_isConst hconst
    have hifTrue := delivers_of_isClean hcall hcalls hΓ t ht htclean hs
    simp only [evalNode]
    refine hifTrue.operand (keeps_of_typed hcall t ht) hslot hs fun v u _ hu => ?_
    have hifFalse := delivers_of_isClean hcall hcalls hΓ e he heclean hu
    refine hifFalse.operand (keeps_of_typed hcall e he) hslot hu fun w u' _ hu' => ?_
    have hcond := delivers_of_isClean hcall hcalls hΓ c hc hcclean hu'
    exact hcond.test (keeps_of_typed hcall c hc) hu' fun _ _ _ => .pure _
  | .brIf label c, .brIf _ hc, hclean, s, hs => by
    have hcond := delivers_of_isClean hcall hcalls hΓ c hc hclean hs
    simp only [evalNode]
    refine hcond.test (keeps_of_typed hcall c hc) hs fun b u _ => ?_
    cases b with
    | true => exact .throw (by simp)
    | false => exact .pure _
  | .brTable targets fallback index, .brTable _ _ h, hclean, s, hs => by
    have hindex := delivers_of_isClean hcall hcalls hΓ index h hclean hs
    simp only [evalNode]
    refine hindex.operand (keeps_of_typed hcall index h) (by simp) hs fun v u _ _ => ?_
    refine (Explains.ofExcept ?_).bind fun _ _ _ => .throw (by simp)
    exact ne_error_of_isLack rfl fun _ => toI32_eq_error
  | .retValue e, .retValue h, hclean, s, hs => by
    obtain ⟨hresult, heclean⟩ := Bool.and_eq_true_iff.1 hclean
    have hvalue := delivers_of_isClean hcall hcalls hΓ e h heclean hs
    simp only [evalNode]
    refine hvalue.operand (keeps_of_typed hcall e h) (by simpa using hresult) hs fun v u _ _ => ?_
    exact .throw (by simp)
  | .drop e, .drop h, hclean, s, hs => by
    simp only [evalNode]
    exact (delivers_of_isClean hcall hcalls hΓ e h hclean hs).bind fun _ _ _ => .pure _
  | .localSet index e, .localSet hlocal h, hclean, s, hs => by
    have hvalue := delivers_of_isClean hcall hcalls hΓ e h hclean hs
    simp only [evalNode]
    refine hvalue.operand (keeps_of_typed hcall e h) (hΓ.ne_none hlocal) hs fun v u _ _ => ?_
    exact (Explains.setLocal rfl).bind fun _ _ _ => .pure _
  | .localTee index _ e, .localTee hlocal h, hclean, s, hs => by
    have hvalue := delivers_of_isClean hcall hcalls hΓ e h hclean hs
    simp only [evalNode]
    refine hvalue.operand (keeps_of_typed hcall e h) (hΓ.ne_none hlocal) hs fun v u _ _ => ?_
    exact (Explains.setLocal rfl).bind fun _ _ _ => .pure _
  | .unary op operand e, .unary haccepts h, hclean, s, hs => by
    have hoperand := delivers_of_isClean hcall hcalls hΓ e h hclean hs
    have hslot := UnaryOp.ne_none_of_accepts haccepts
    simp only [evalNode]
    refine hoperand.operand (keeps_of_typed hcall e h) hslot hs fun v u _ _ => ?_
    exact .operator rfl fun _ => unary_eq_error
  | .binary op operand l r, .binary haccepts hl hr, hclean, s, hs => by
    obtain ⟨hlclean, hrclean⟩ := Bool.and_eq_true_iff.1 hclean
    have hslot := BinaryOp.ne_none_of_accepts haccepts
    have hleft := delivers_of_isClean hcall hcalls hΓ l hl hlclean hs
    simp only [evalNode]
    refine hleft.operand (keeps_of_typed hcall l hl) hslot hs fun v u _ hu => ?_
    have hright := delivers_of_isClean hcall hcalls hΓ r hr hrclean hu
    refine hright.operand (keeps_of_typed hcall r hr) hslot hu fun w u' _ _ => ?_
    exact .operator rfl fun _ => binary_eq_error
  | .convert c e, .convert h, hclean, s, hs => by
    have hoperand := delivers_of_isClean hcall hcalls hΓ e h hclean hs
    simp only [evalNode]
    refine hoperand.operand (keeps_of_typed hcall e h) c.operand_ne_none hs fun v u _ _ => ?_
    exact .operator rfl fun _ => convert_eq_error
  | .call id args _, .call hcallee h, hclean, s, hs => by
    have hparams := hΓ.params _ _ _ hcallee
    have hargs := delivers_of_cleanArgs hcall hcalls hΓ args h hparams hclean hs
    simp only [evalNode]
    refine hargs.bind fun vs t hvs => ?_
    have hslots := ((keeps_of_typedArgs hcall args h).of_ok hs hvs).2
    -- The arguments have the slots of the parameters, and the callee answers for the rest.
    exact hcalls _ _ _ _ t hcallee hslots
termination_by structural n => n

/-- Clean nodes one after the other miss no value, also where an `unreachable` node stands among
    them. -/
private theorem delivers_of_cleanAll (hcall : CallsKeepSlots call Γ) (hcalls : CallsDeliver call Γ)
    (hΓ : Γ.Valued) {labels : List Label} {slot : Slot} (last : Option Value) :
    (ns : List Node) → TypedAll Γ labels ns slot →
    (∀ n ∈ ns, n.isClean Γ.result ∨ n = .unreachable) → ∀ {s : State σ}, HasSlots Γ.locals s →
    Delivers (evalAll call clock last ns) s
  | [], _, _, s, _ => by simp only [evalAll]; exact .pure _
  | n :: ns, h, hclean, s, hs => by
    obtain ⟨hn, hns⟩ := List.forall_mem_cons.1 hclean
    have hfirst : ∀ {t}, n.Typed Γ labels t → Delivers (evalNode call clock n) s := by
      intro t htyped
      -- An `unreachable` traps for a reason of its own.
      rcases hn with hn | rfl
      · exact delivers_of_isClean hcall hcalls hΓ n htyped hn hs
      · simp only [evalNode]
        exact .throw (by simp)
    simp only [evalAll]
    cases h with
    | last hn => exact (hfirst hn).bind fun _ _ _ => .pure _
    | cons hn hne hrest =>
      refine (hfirst hn).bind fun v t hv => ?_
      have ht := ((keeps_of_typed hcall n hn).of_ok hs hv).1
      exact delivers_of_cleanAll hcall hcalls hΓ v ns hrest hns ht
termination_by structural ns => ns

/-- The arguments of a call are there if its parameters hold values. -/
private theorem delivers_of_cleanArgs (hcall : CallsKeepSlots call Γ) (hcalls : CallsDeliver call Γ)
    (hΓ : Γ.Valued) {labels : List Label} {params : List Slot} : (ns : List Node) →
    TypedArgs Γ labels ns params → Slot.none ∉ params → allClean Γ.result ns →
    ∀ {s : State σ}, HasSlots Γ.locals s → Delivers (evalArgs call clock ns) s
  | [], _, _, _, s, _ => by simp only [evalArgs]; exact .pure _
  | n :: ns, .cons hn hns, hparams, hclean, s, hs => by
    obtain ⟨hnclean, hnsclean⟩ := Bool.and_eq_true_iff.1 hclean
    -- No parameter lies in the slot of nothing, so every argument has to leave a value.
    have hslot := List.ne_of_not_mem_cons hparams
    have hrestParams := List.not_mem_of_not_mem_cons hparams
    have hfirst := delivers_of_isClean hcall hcalls hΓ n hn hnclean hs
    simp only [evalArgs]
    refine hfirst.operand (keeps_of_typed hcall n hn) (Ne.symm hslot) hs fun v t _ ht => ?_
    have hrest := delivers_of_cleanArgs hcall hcalls hΓ ns hns hrestParams hnsclean ht
    exact hrest.bind fun _ _ _ => .pure _
termination_by structural ns => ns

end

end

/-! ## Calls -/

/-- Locals that hold values have a zero to start with. -/
private theorem zeros_ne_none {locals : List Local} (h : Slot.none ∉ locals.map Local.slot) :
    (locals.mapM fun l => Value.zero? l.slot) ≠ none := by
  induction locals with
  | nil => simp
  | cons l ls ih =>
    rw [List.map_cons] at h
    have hslot := List.ne_of_not_mem_cons h
    obtain ⟨zeros, hzeros⟩ := Option.ne_none_iff_exists'.1 (ih (List.not_mem_of_not_mem_cons h))
    rw [List.mapM_cons, hzeros]
    cases hl : l.slot with
    | none => exact absurd hl.symm hslot
    | i32 | i64 | f32 | f64 => simp [Value.zero?]

variable {env : Environment σ}

/-- In a typed module of clean functions whose locals and parameters have values, no call misses
    one. The induction is on the clock, which bounds the depth of the calls. -/
private theorem call_delivers (htyped : env.module.Typed)
    (hclean : ∀ f ∈ env.module.functions, f.Clean ∧ (env.module.typeContext f).Valued)
    (hhosts : env.HostsFailAsHosts) (hanswer : env.HostsAnswer) {clock id : Nat}
    {args : List Value} (s : State σ) : Delivers (env.call clock id args) s := by
  -- The induction is on the clock: the body runs with one less than the call.
  induction clock generalizing id args s with
  | zero =>
    intro s' h
    obtain ⟨f, t, -, hcallee, -, hbody⟩ := enter_eq_lack rfl (hhosts.spare rfl) h
    obtain ⟨-, hvalued⟩ := hclean f (Module.mem_of_callee? hcallee)
    rcases runBody_eq_lack rfl hbody with ⟨hreason, -⟩ | ⟨-, hzeros⟩ | ⟨zeros, inner, -, -, hrun⟩
    · cases hreason
    · exact zeros_ne_none (fun hmem => hvalued.locals (List.mem_append_right _ hmem)) hzeros
    · rcases hrun with hrun | ⟨-, -, hrun | hrun⟩ <;> cases hrun
  | succ clock ih =>
    intro s' h
    obtain ⟨f, t, -, hcallee, hslots, hbody⟩ := enter_eq_lack rfl (hhosts.spare rfl) h
    have hf := Module.mem_of_callee? hcallee
    obtain ⟨⟨nodes, hnodes, hblock⟩, hvalued⟩ := hclean f hf
    rcases runBody_eq_lack rfl hbody with ⟨hreason, -⟩ | ⟨-, hzeros⟩ |
      ⟨zeros, inner, -, hzeros, hrun⟩
    · cases hreason
    · exact zeros_ne_none (fun hmem => hvalued.locals (List.mem_append_right _ hmem)) hzeros
    have hkeep : CallsKeepSlots (env.call clock) (env.module.typeContext f) := by
      intro id params result args hΓ hargs
      obtain ⟨c, hc, heq⟩ := Option.map_eq_some_iff.1 hΓ
      cases heq
      exact call_keeps_of_typed htyped hhosts hanswer hc hargs
    have hframe : HasSlots (env.module.typeContext f).locals
        { t with locals := args ++ zeros, depth := t.depth + 1 } := by
      show (args ++ zeros).map Value.slot = f.paramSlots ++ f.locals.map Local.slot
      rw [List.map_append, hslots, slots_of_zeros hzeros]
    have hkeeps : KeepsSlots (env.module.typeContext f)
        (evalNode (env.call clock) clock f.body) f.result :=
      keeps_of_typed hkeep f.body (htyped f hf)
    rcases hrun with hrun | ⟨-, hresult, hrun | hrun⟩
    -- The statements of the body miss no value, and if there is a result, the body leaves one.
    · have hseq := htyped f hf
      rw [hblock] at hseq hrun
      cases hseq with
      | sequence hseq =>
        simp only [evalNode] at hrun
        exact delivers_of_cleanAll hkeep (fun _ _ _ _ s _ _ => ih s) hvalued none nodes hseq
          hnodes hframe _ hrun
    · have hnone : resultSlot none = f.result := (hkeeps.of_ok hframe hrun).2
      exact hresult hnone.symm
    · have hnone : resultSlot none = f.result := (hkeeps.of_error hframe hrun).2
      exact hresult hnone.symm

end Weir.Machine

namespace Weir.Lowering

open Weir.Code (Callee Slot Value)
open Weir.Machine (Environment)
open Weir.Source (Program Ty)

variable {settings : Settings} {p : Program} {r : Lowered}

/-! ## Programs -/

/-- No import and no function has a parameter of the type `void`. -/
def HasValuedParams (p : Program) : Prop :=
  (∀ i ∈ p.imports, ∀ t ∈ i.params, t.isVoid = false) ∧
    ∀ f ∈ p.functions, ∀ q ∈ f.params, q.ty.isVoid = false

/-- Types that are not `void` have values. -/
private theorem none_not_mem_slots {w : Source.PointerWidth} {ts : List Ty}
    (h : ∀ t ∈ ts, t.isVoid = false) : Slot.none ∉ ts.map (·.slot w) := by
  intro hmem
  obtain ⟨t, ht, hnone⟩ := List.mem_map.1 hmem
  exact Ty.slot_ne_none (h t ht) hnone

/-- Then every callee asks for values only. -/
private theorem none_not_mem_params (h : lowerProgram settings p = .ok r)
    (hparams : HasValuedParams p) {id : Nat} {c : Callee} (hc : r.module.callee? id = some c) :
    Slot.none ∉ c.params := by
  -- Imports are as declared, and functions are as their heads say.
  cases c with
  | imported i =>
    obtain ⟨functions, lowered, -, -, hmodule, -⟩ := lowerProgram_eq_ok h
    have hi : i ∈ p.imports.map (lowerImport settings) := by
      rw [hmodule] at hc
      unfold Code.Module.callee? at hc
      split at hc
      · obtain ⟨j, hj, heq⟩ := Option.map_eq_some_iff.1 hc
        cases heq
        exact List.mem_of_getElem? hj
      · obtain ⟨g, -, heq⟩ := Option.map_eq_some_iff.1 hc
        cases heq
    obtain ⟨d, hd, rfl⟩ := List.mem_map.1 hi
    exact none_not_mem_slots (hparams.1 d hd)
  | defined g =>
    obtain ⟨f, ds, hf, -, hlowered⟩ := exists_lowerFunction h (Code.Module.mem_of_callee? hc)
    obtain ⟨hslots, -⟩ := lowerFunction_eq_ok hlowered
    have htypes : g.paramSlots = (f.params.map Source.Param.ty).map (·.slot settings.width) := by
      rw [hslots, List.map_map]
      rfl
    show Slot.none ∉ g.paramSlots
    rw [htypes]
    exact none_not_mem_slots (List.forall_mem_map.2 (hparams.2 f hf))

/-- Every local of a lowered function holds a value, since no variable has the type `void`. -/
private theorem lowerProgram_valued (h : lowerProgram settings p = .ok r)
    (hparams : HasValuedParams p) {g : Code.Function} (hg : g ∈ r.module.functions) :
    (r.module.typeContext g).Valued := by
  -- The locals are typed by declarations, the callees by the heads.
  refine ⟨?_, fun id params result hcallee => ?_⟩
  · obtain ⟨f, ds, hf, -, hlowered⟩ := exists_lowerFunction h hg
    obtain ⟨hslots, -⟩ := lowerFunction_records hlowered
    obtain ⟨more, htypes, hmore⟩ :=
      exists_localTypes settings (enterAll {} (callables p)).1 f
    show Slot.none ∉ g.paramSlots ++ g.locals.map Code.Local.slot
    rw [hslots, htypes]
    exact none_not_mem_slots
      (List.forall_mem_append.2 ⟨List.forall_mem_map.2 (hparams.2 f hf), hmore⟩)
  · obtain ⟨c, hc, heq⟩ := Option.map_eq_some_iff.1 hcallee
    cases heq
    exact none_not_mem_params h hparams hc

/-- A program without reports whose parameters all have values never traps over a missing value,
    whether a run starts at a function by number or by name. -/
theorem lowerProgram_delivers (h : lowerProgram settings p = .ok r) (hquiet : r.reports = [])
    (hparams : HasValuedParams p) {σ : Type} {env : Environment σ} (henv : env.module = r.module)
    (hhosts : env.HostsFailAsHosts) (hanswer : env.HostsAnswer) (clock : Nat) (args : List Value)
    (s s' : Machine.State σ) :
    (∀ id, env.call clock id args s ≠ .error (.trap .missingValue) s') ∧
      ∀ name, env.invoke clock name args s ≠ .error (.trap .missingValue) s' := by
  have hclean : ∀ f ∈ env.module.functions, f.Clean ∧ (env.module.typeContext f).Valued := by
    intro f hf
    rw [henv] at hf ⊢
    refine ⟨?_, lowerProgram_valued h hparams hf⟩
    obtain ⟨nodes, hnodes, hbody | ⟨-, hbody⟩⟩ := lowerProgram_isClean h hquiet hf
    · exact ⟨nodes, fun n hn => .inl (hnodes n hn), hbody⟩
    · -- The trap at the end of the body does not ask for a value.
      refine ⟨nodes ++ [.unreachable], List.forall_mem_append.2 ⟨?_, by simp⟩, hbody⟩
      exact fun n hn => .inl (hnodes n hn)
  have htyped : env.module.Typed := henv ▸ lowerProgram_typed h
  have hcall : ∀ id, env.call clock id args s ≠ .error (.trap .missingValue) s' :=
    fun id => Machine.call_delivers htyped hclean hhosts hanswer s s'
  refine ⟨hcall, fun name => ?_⟩
  unfold Environment.invoke
  cases env.module.findFunction? name with
  | none => exact fun h => by cases h
  | some id => exact hcall id

/-- A program that passes the number of a host on, through a variable and a call. -/
def relay : Program where
  imports := [⟨"read", [], .i32⟩]
  functions := [
    { name := "double", params := [⟨"n", .i32⟩], result := .i32, bodySpan := .empty
      isExported := false, span := .empty
      body := [.returnStmt .empty (some (.binary .empty .add (.name .empty "n")
        (.name .empty "n")))] },
    { name := "main", params := [], result := .i32, bodySpan := .empty
      isExported := true, span := .empty
      body := [
        .varDecl .empty .letVar [⟨⟨.empty, "n"⟩, none, some (.call .empty ⟨.empty, "read"⟩ [])⟩],
        .returnStmt .empty (some (.call .empty ⟨.empty, "double"⟩ [.name .empty "n"]))] }]

/-- A host that always answers with the same number. -/
def constantHost (n : BitVec 32) : Machine.Host Unit := fun _ w => .ok (some (.i32 n)) w

/-- The host answers with a number, so no run of the program misses a value. -/
theorem relay_delivers : ∃ r, lowerProgram {} relay = .ok r ∧ r.reports = [] ∧
    HasValuedParams relay ∧ ∀ clock s s',
      let env : Environment Unit := ⟨r.module, fun _ => some (constantHost 21)⟩
      (∀ id, env.call clock id [] s ≠ .error (.trap .missingValue) s') ∧
        ∀ name, env.invoke clock name [] s ≠ .error (.trap .missingValue) s' := by
  have hfacts : ((lowerProgram {} relay).toOption.any fun r =>
      decide (r.reports = [] ∧ r.module.imports = [⟨"read", [], .i32⟩])) = true := by
    decide +kernel
  have hparams : HasValuedParams relay := by
    refine ⟨?_, ?_⟩ <;> simp [relay, Ty.isVoid]
  cases hr : lowerProgram {} relay with
  | error e =>
    rw [hr] at hfacts
    cases hfacts
  | ok r =>
    rw [hr] at hfacts
    obtain ⟨hquiet, himports⟩ := of_decide_eq_true hfacts
    refine ⟨r, rfl, hquiet, hparams, fun clock s s' => ?_⟩
    refine lowerProgram_delivers hr hquiet hparams rfl ?_ ?_ clock [] s s'
    · intro id host hbound args w reason w' hfail
      cases hbound
      cases hfail
    · intro id i host hi hbound args w v w' hok
      cases hbound
      cases hok
      -- The only import has a number for its result.
      unfold Code.Module.callee? at hi
      split at hi
      next hlt =>
        rw [himports] at hi hlt
        obtain rfl : id = 0 := by simpa using hlt
        cases hi
        rfl
      next => simp at hi

/-- A call without a value, passed to a function whose parameter has the type `void`. -/
def droppedArgument : Program where
  imports := []
  functions := [
    { name := "g", params := [], result := .void, bodySpan := .empty, isExported := false
      span := .empty, body := [] },
    { name := "f", params := [⟨"x", .void⟩], result := .void, bodySpan := .empty
      isExported := false, span := .empty, body := [] },
    { name := "main", params := [], result := .void, bodySpan := .empty, isExported := true
      span := .empty
      body := [.exprStmt .empty (.call .empty ⟨.empty, "f"⟩ [.call .empty ⟨.empty, "g"⟩ []])] }]

/-- Nothing is reported of an argument for a `void` parameter, and yet the call misses a value. -/
theorem dropped_argument_missing : ∃ r, lowerProgram {} droppedArgument = .ok r ∧
    r.reports = [] ∧ ∃ s',
      Environment.invoke (⟨r.module, fun _ => none⟩ : Environment Unit) 2 "main" []
        ⟨[], none, 0, ()⟩ = .error (.trap .missingValue) s' := by
  have hfacts : ((lowerProgram {} droppedArgument).toOption.any fun r =>
      decide (r.reports = []) && decide (Machine.trap? (Environment.invoke
        (⟨r.module, fun _ => none⟩ : Environment Unit) 2 "main" [] ⟨[], none, 0, ()⟩) =
          some .missingValue)) = true := by
    decide +kernel
  cases hr : lowerProgram {} droppedArgument with
  | error e =>
    rw [hr] at hfacts
    cases hfacts
  | ok r =>
    rw [hr] at hfacts
    obtain ⟨hquiet, hrun⟩ := Bool.and_eq_true_iff.1 hfacts
    exact ⟨r, rfl, of_decide_eq_true hquiet, Machine.trap?_eq_some (of_decide_eq_true hrun)⟩

end Weir.Lowering
