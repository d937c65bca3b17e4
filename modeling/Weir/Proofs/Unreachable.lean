import Weir.Proofs.Moments
import Weir.Proofs.QuietCode

/-!
# Unreachable code

A program without reports has no `unreachable` node but at the very end of functions with a result.
So a run of it traps there only if control comes to the end of such a function, which then has
nothing to return.

## Key results

- `call_eq_unreachable`: calls between functions that only trap at their end
- `lowerProgram_unreachable`: programs without reports
-/

namespace Weir.Code

variable {result : Slot}

mutual

/-- Clean code has no `unreachable` nodes. -/
private theorem Node.unreachables_of_isClean : (n : Node) → n.isClean result → n.unreachables = 0
  | .nop, _ | .const _, _ | .localGet .., _ | .br _, _ | .ret, _ => rfl
  | .block _ children, h => unreachablesAll_of_allClean children h
  | .loop _ body, h => Node.unreachables_of_isClean body h
  | .ifThen _ c t, h => by
    -- The parts of a clean node are clean, and the node itself is none of those counted.
    simp only [Node.isClean, Bool.and_eq_true] at h
    simp only [Node.unreachables, Node.unreachables_of_isClean c h.1,
      Node.unreachables_of_isClean t h.2]
  | .ifElse _ c t e, h => by
    simp only [Node.isClean, Bool.and_eq_true] at h
    simp only [Node.unreachables, Node.unreachables_of_isClean c h.1,
      Node.unreachables_of_isClean t h.2.1, Node.unreachables_of_isClean e h.2.2]
  | .select c t e, h => by
    simp only [Node.isClean, Bool.and_eq_true] at h
    simp only [Node.unreachables, Node.unreachables_of_isClean c h.2.1,
      Node.unreachables_of_isClean t h.2.2.1, Node.unreachables_of_isClean e h.2.2.2]
  | .retValue e, h => by
    simp only [Node.isClean, Bool.and_eq_true] at h
    exact Node.unreachables_of_isClean e h.2
  | .drop e, h | .localSet _ e, h | .localTee _ _ e, h | .unary _ _ e, h | .convert _ e, h
  | .brIf _ e, h | .brTable _ _ e, h => Node.unreachables_of_isClean e h
  | .binary _ _ l r, h => by
    simp only [Node.isClean, Bool.and_eq_true] at h
    simp only [Node.unreachables, Node.unreachables_of_isClean l h.1,
      Node.unreachables_of_isClean r h.2]
  | .call _ args _, h => unreachablesAll_of_allClean args h
termination_by structural n => n

private theorem unreachablesAll_of_allClean :
    (ns : List Node) → allClean result ns → unreachablesAll ns = 0
  | [], _ => rfl
  | n :: ns, h => by
    simp only [allClean, Bool.and_eq_true] at h
    simp only [unreachablesAll, Node.unreachables_of_isClean n h.1,
      unreachablesAll_of_allClean ns h.2]
termination_by structural ns => ns

end

/-- The nodes of two lists are counted in each of them. -/
private theorem unreachablesAll_append (ns ms : List Node) :
    unreachablesAll (ns ++ ms) = unreachablesAll ns + unreachablesAll ms := by
  induction ns with
  | nil => rw [List.nil_append, unreachablesAll, Nat.zero_add]
  | cons n ns ih => rw [List.cons_append, unreachablesAll, unreachablesAll, ih, Nat.add_assoc]

/-- There is no `unreachable` node in a function, but for one at the end of its body if it has a
    result: it is the last node of the block that the body is. -/
def Function.TrapsAtEndOnly (f : Function) : Prop :=
  ∃ nodes, unreachablesAll nodes = 0 ∧ (f.body = .block none nodes ∨
    (f.result ≠ .none ∧ f.body = .block none (nodes ++ [.unreachable])))

/-- Then there is at most one. -/
private theorem Function.TrapsAtEndOnly.le_one {f : Function} (h : f.TrapsAtEndOnly) :
    f.body.unreachables ≤ 1 := by
  obtain ⟨nodes, hnodes, hbody | ⟨-, hbody⟩⟩ := h
  · rw [hbody, Node.unreachables, hnodes]
    omega
  · rw [hbody, Node.unreachables, unreachablesAll_append, hnodes]
    decide

end Weir.Code

namespace Weir.Machine

open Weir.Code

variable {σ : Type} {env : Environment σ}

/-- Control comes to the end of the body that starts at the moment: it is the body of a function
    with a result, all of its statements run to their end, and its last node is an `unreachable`
    one. -/
def Environment.RunsOut (env : Environment σ) (m : Moment σ) : Prop :=
  ∃ f nodes v t, env.module.callee? m.function = some (.defined f) ∧ f.result ≠ .none ∧
    f.body = .block none (nodes ++ [.unreachable]) ∧ m.node = f.body ∧
    evalAll (env.call m.clock) m.clock none nodes m.state = .ok v t

/-- Where functions only trap at their end, a call only traps at an `unreachable` node if it passes
    through the body of a function that control comes to the end of. The induction is on the clock,
    which bounds the depth of the calls. -/
theorem call_eq_unreachable (hmodule : ∀ f ∈ env.module.functions, f.TrapsAtEndOnly)
    (hhosts : env.HostsSpare .unreachable) {clock id : Nat} {args : List Value} {s s' : State σ}
    (h : env.call clock id args s = .error (.trap .unreachable) s') :
    ∃ m, env.Passes clock id args s m ∧ env.RunsOut m := by
  induction clock generalizing id args s s' with
  | zero =>
    obtain ⟨f, inner, s'', -, hrun⟩ := enter_eq_unreachable hhosts h
    cases hrun
  | succ k ih =>
    obtain ⟨f, inner, s'', henters, hrun⟩ := enter_eq_unreachable hhosts h
    -- A call that the body comes to is one that the whole run passes through.
    have hcalled : PassedOn env .unreachable ⟨id, k, f.body, inner⟩ id k s'' →
        ∃ m, env.Passes (k + 1) id args s m ∧ env.RunsOut m := by
      rintro ⟨callee, nodes, r, s₁, vs, t, hreach, hargs, hcall⟩
      obtain ⟨m, ⟨k', g, inner', rfl, hcallee, hm⟩, hout⟩ := ih hcall
      have hthrough := (hreach.tail (.call hargs hcallee)).trans hm
      exact ⟨m, ⟨k' + 1, f, inner, rfl, henters, hthrough⟩, hout⟩
    have habsent {n : Nat} (hn : n = 0) : Absent .unreachable n := ⟨rfl, by simp, fun _ => hn⟩
    obtain ⟨nodes, hnodes, hbody | ⟨hresult, hbody⟩⟩ :=
      hmodule f (Module.mem_of_callee? henters.callee)
    · rw [hbody] at hcalled hrun
      simp only [evalNode] at hrun
      have hreach : env.Reaches ⟨id, k, .block none nodes, inner⟩
          ⟨id, k, .block none ([] ++ (nodes ++ [])), inner⟩ := by
        rw [List.append_nil]
        exact .refl
      exact hcalled (passesOn_of_reachableAll nodes (habsent hnodes) [] [] hreach rfl s'' hrun)
    · rw [hbody] at hrun
      simp only [evalNode, evalAll_append, evalAll_singleton] at hrun
      rw [Run.bind_apply] at hrun
      cases hstmts : evalAll (env.call k) k none nodes inner with
      | ok v t =>
        -- The statements have run to their end.
        have hpasses : env.Passes (k + 1) id args s ⟨id, k, f.body, inner⟩ :=
          ⟨k, f, inner, rfl, henters, .refl⟩
        exact ⟨_, hpasses, f, nodes, v, t, henters.callee, hresult, hbody, rfl, hstmts⟩
      | error e t =>
        rw [hstmts] at hrun
        cases hrun
        rw [hbody] at hcalled
        exact hcalled
          (passesOn_of_reachableAll nodes (habsent hnodes) [] [.unreachable] .refl rfl _ hstmts)

end Weir.Machine

namespace Weir.Lowering

open Weir.Code (Value)
open Weir.Machine (Environment Exit Moment)

/-- A program without reports only has `unreachable` nodes at the end of functions with a result, at
    most one in each of them. So a run of it, whether it starts at a function by number or by name,
    traps there only after it has passed through the body of such a function, and control has come
    to the end of that body; a host that fails that way of itself is no part of the program. -/
theorem lowerProgram_unreachable {settings : Settings} {p : Source.Program} {r : Lowered}
    (h : lowerProgram settings p = .ok r) (hquiet : r.reports = []) :
    (∀ f ∈ r.module.functions, f.body.unreachables ≤ 1 ∧ f.TrapsAtEndOnly) ∧
      ∀ {σ : Type} (env : Environment σ), env.module = r.module →
        env.HostsSpare .unreachable → ∀ clock args s s',
        (∀ id, env.call clock id args s = .error (.trap .unreachable) s' →
          ∃ m, env.Passes clock id args s m ∧ env.RunsOut m) ∧
        ∀ name, env.invoke clock name args s = .error (.trap .unreachable) s' →
          ∃ id m, r.module.findFunction? name = some id ∧ env.Passes clock id args s m ∧
            env.RunsOut m := by
  -- Only the end of a body has such a node, as the statements before it are clean.
  have hends : ∀ f ∈ r.module.functions, f.TrapsAtEndOnly := by
    intro f hf
    obtain ⟨nodes, hclean, hbody⟩ := lowerProgram_isClean h hquiet hf
    have hnodes := Code.unreachablesAll_of_allClean nodes (Code.allClean_iff.2 hclean)
    exact ⟨nodes, hnodes, hbody⟩
  refine ⟨fun f hf => ⟨(hends f hf).le_one, hends f hf⟩, ?_⟩
  intro σ env henv hhosts clock args s s'
  have hcall : ∀ id, env.call clock id args s = .error (.trap .unreachable) s' →
      ∃ m, env.Passes clock id args s m ∧ env.RunsOut m :=
    fun id hrun => Machine.call_eq_unreachable (henv ▸ hends) hhosts hrun
  refine ⟨hcall, fun name hrun => ?_⟩
  unfold Environment.invoke at hrun
  rw [henv] at hrun
  -- A name that is not found is another trap.
  cases hname : r.module.findFunction? name with
  | none =>
    rw [hname] at hrun
    cases hrun
  | some id =>
    rw [hname] at hrun
    obtain ⟨m, hpasses, hout⟩ := hcall id hrun
    exact ⟨id, m, rfl, hpasses, hout⟩

/-- A function that may not return the result that it has, and a function that calls it. -/
def halfway : Source.Program where
  imports := []
  functions := [
    { name := "pick", params := [⟨"n", .i32⟩], result := .i32, bodySpan := .empty
      isExported := false, span := .empty
      body := [.ifStmt .empty (.name .empty "n")
        (.returnStmt .empty (some (.literal .empty (.int 1)))) none] },
    { name := "main", params := [⟨"n", .i32⟩], result := .i32, bodySpan := .empty
      isExported := true, span := .empty
      body := [.returnStmt .empty (some (.binary .empty .add (.literal .empty (.int 1))
        (.call .empty ⟨.empty, "pick"⟩ [.name .empty "n"])))] }]

/-- The run comes to the end of a function that returns on the other branch only. -/
theorem halfway_runs_out : ∃ r, lowerProgram {} halfway = .ok r ∧ r.reports = [] ∧
    (∀ f ∈ r.module.functions, f.body.unreachables ≤ 1 ∧ f.TrapsAtEndOnly) ∧
    let env : Environment Unit := ⟨r.module, fun _ => none⟩
    ∃ s' id m, env.invoke 2 "main" [.i32 0] ⟨[], none, 0, ()⟩ = .error (.trap .unreachable) s' ∧
      env.Passes 2 id [.i32 0] ⟨[], none, 0, ()⟩ m ∧ env.RunsOut m := by
  have hok : (lowerProgram {} halfway).toOption.isSome = true := by
    decide +kernel
  have hfacts : ((lowerProgram {} halfway).toOption.all fun r => decide (r.reports = []) &&
      decide (Machine.trap? (Environment.invoke (⟨r.module, fun _ => none⟩ : Environment Unit) 2
        "main" [.i32 0] ⟨[], none, 0, ()⟩) = some .unreachable)) = true := by
    decide +kernel
  cases hr : lowerProgram {} halfway with
  | error e =>
    rw [hr] at hok
    cases hok
  | ok r =>
    rw [hr] at hfacts
    obtain ⟨hreports, htrap⟩ := Bool.and_eq_true_iff.1 hfacts
    have hquiet : r.reports = [] := of_decide_eq_true hreports
    obtain ⟨hfunctions, hruns⟩ := lowerProgram_unreachable hr hquiet
    refine ⟨r, rfl, hquiet, hfunctions, ?_⟩
    dsimp only
    have hhosts : Environment.HostsSpare (⟨r.module, fun _ => none⟩ : Environment Unit)
        .unreachable :=
      fun id host hhost => by cases hhost
    obtain ⟨s', hrun⟩ := Machine.trap?_eq_some (of_decide_eq_true htrap)
    obtain ⟨id, m, -, hpasses, hout⟩ :=
      (hruns _ rfl hhosts 2 [.i32 0] ⟨[], none, 0, ()⟩ s').2 "main" hrun
    exact ⟨s', id, m, hrun, hpasses, hout⟩

end Weir.Lowering
