import Weir.Code.Validation

/-!
# Scoping

`Node.Scoped` says when a tree of code is well scoped inside given labels: branches go to
enclosing blocks and loops, no label is bound while it is in scope, locals are declared, and calls
pass as many arguments as their callee has parameters. The checker of `Weir.Code.Validation`
accepts exactly the well-scoped trees.

## Key results

- `Node.check_eq_ok_iff`: a node passes its check if and only if it is well scoped
- `Module.check_eq_ok_iff`: a module passes its check if and only if its function bodies are
-/

namespace Weir.Code

/-- A call can reach its callee with the given number of arguments; where calls are not resolved,
    every call can. -/
def Surroundings.Reaches (s : Surroundings) (callee found : Nat) : Prop :=
  ∀ m, s.module = some m → ∃ c, m.callee? callee = some c ∧ c.params.length = found

/-- A node is well scoped inside the labels of the blocks and loops around it. -/
inductive Node.Scoped (s : Surroundings) : List Label → Node → Prop
  | nop {labels} : Scoped s labels .nop
  | unreachable {labels} : Scoped s labels .unreachable
  | sequence {labels children} (h : ∀ n ∈ children, Scoped s labels n) :
      Scoped s labels (.block none children)
  | block {labels label children} (hfresh : label ∉ labels)
      (h : ∀ n ∈ children, Scoped s (label :: labels) n) :
      Scoped s labels (.block (some label) children)
  | loop {labels label body} (hfresh : label ∉ labels) (h : Scoped s (label :: labels) body) :
      Scoped s labels (.loop label body)
  | ifThen {labels result c t} (hc : Scoped s labels c) (ht : Scoped s labels t) :
      Scoped s labels (.ifThen result c t)
  | ifElse {labels result c t e} (hc : Scoped s labels c) (ht : Scoped s labels t)
      (he : Scoped s labels e) : Scoped s labels (.ifElse result c t e)
  | select {labels c t e} (ht : Scoped s labels t) (he : Scoped s labels e)
      (hc : Scoped s labels c) : Scoped s labels (.select c t e)
  | br {labels label} (hbound : label ∈ labels) : Scoped s labels (.br label)
  | brIf {labels label c} (hbound : label ∈ labels) (hc : Scoped s labels c) :
      Scoped s labels (.brIf label c)
  | brTable {labels targets fallback index} (hbound : ∀ l ∈ targets, l ∈ labels)
      (hfallback : fallback ∈ labels) (h : Scoped s labels index) :
      Scoped s labels (.brTable targets fallback index)
  | ret {labels} : Scoped s labels .ret
  | retValue {labels e} (h : Scoped s labels e) : Scoped s labels (.retValue e)
  | drop {labels e} (h : Scoped s labels e) : Scoped s labels (.drop e)
  | const {labels v} : Scoped s labels (.const v)
  | localGet {labels index slot} (hdeclared : index < s.localCount) :
      Scoped s labels (.localGet index slot)
  | localSet {labels index e} (hdeclared : index < s.localCount) (h : Scoped s labels e) :
      Scoped s labels (.localSet index e)
  | localTee {labels index slot e} (hdeclared : index < s.localCount) (h : Scoped s labels e) :
      Scoped s labels (.localTee index slot e)
  | unary {labels op operand e} (h : Scoped s labels e) : Scoped s labels (.unary op operand e)
  | binary {labels op operand l r} (hl : Scoped s labels l) (hr : Scoped s labels r) :
      Scoped s labels (.binary op operand l r)
  | convert {labels c e} (h : Scoped s labels e) : Scoped s labels (.convert c e)
  | call {labels callee args result} (hcallee : s.Reaches callee args.length)
      (h : ∀ n ∈ args, Scoped s labels n) : Scoped s labels (.call callee args result)

/-- A callee that is defined is one of the functions. -/
theorem Module.mem_of_callee? {m : Module} {id : Nat} {f : Function}
    (h : m.callee? id = some (.defined f)) : f ∈ m.functions := by
  unfold Module.callee? at h
  split at h
  · simp at h
  · obtain ⟨g, hg, heq⟩ := Option.map_eq_some_iff.1 h
    cases heq
    exact List.mem_of_getElem? hg

/-- A name that is found names the function that it was found at. -/
theorem Module.callee?_of_findFunction? {m : Module} {name : String} {id : Nat}
    (h : m.findFunction? name = some id) :
    ∃ f, m.callee? id = some (.defined f) ∧ f.name = name := by
  obtain ⟨k, hk, rfl⟩ := Option.map_eq_some_iff.1 h
  obtain ⟨hlt, hname, -⟩ := List.findIdx?_eq_some_iff_getElem.1 hk
  refine ⟨m.functions[k], ?_, by simpa using hname⟩
  simp [Module.callee?_function, hlt]

/-! ## The single checks -/

/-- Two checks in a row pass if and only if both do. -/
theorem check_bind_eq_ok_iff {x y : Except Defect Unit} :
    (do x; y) = .ok () ↔ x = .ok () ∧ y = .ok () := by
  cases x <;> simp [bind, Except.bind]

namespace Surroundings

/-- A branch passes where its label is bound around it. -/
theorem checkTarget_eq_ok_iff {labels : List Label} {label : Label} :
    checkTarget labels label = .ok () ↔ label ∈ labels := by
  unfold checkTarget
  split <;> simp_all

/-- A label may be bound where none around it has the name. -/
theorem checkBinding_eq_ok_iff {labels : List Label} {label : Label} :
    checkBinding labels label = .ok () ↔ label ∉ labels := by
  unfold checkBinding
  split <;> simp_all

/-- A local passes where it is declared. -/
theorem checkLocal_eq_ok_iff {s : Surroundings} {index : Nat} :
    s.checkLocal index = .ok () ↔ index < s.localCount := by
  unfold checkLocal
  split <;> simp_all

/-- A call passes where its callee takes as many arguments. -/
theorem checkCall_eq_ok_iff {s : Surroundings} {callee found : Nat} :
    s.checkCall callee found = .ok () ↔ s.Reaches callee found := by
  unfold checkCall Reaches
  -- A node that is checked by itself may call anything.
  cases hm : s.module with
  | none => simp
  | some m =>
    cases hc : m.callee? callee with
    | none => simp [hc]
    | some c => by_cases hlen : c.params.length = found <;> simp [hc, hlen]

end Surroundings

/-- A check of many things passes if and only if it passes on each of them. -/
theorem forM_check_eq_ok_iff {α : Type} {f : α → Except Defect Unit} {xs : List α} :
    xs.forM f = .ok () ↔ ∀ x ∈ xs, f x = .ok () := by
  induction xs with
  | nil => simp [List.forM, pure, Except.pure]
  | cons x xs ih =>
    -- The library defines this by recursion, so the first step is read off.
    rw [show (x :: xs).forM f = (do f x; xs.forM f) from rfl, check_bind_eq_ok_iff, ih]
    simp only [List.mem_cons, forall_eq_or_imp]

/-- Nodes pass their check one after the other if and only if each of them passes. -/
theorem checkAll_eq_ok_iff {s : Surroundings} {labels : List Label} {ns : List Node} :
    checkAll s labels ns = .ok () ↔ ∀ n ∈ ns, n.check s labels = .ok () := by
  induction ns with
  | nil => simp [checkAll]
  | cons n ns ih =>
    simp only [checkAll, check_bind_eq_ok_iff, ih, List.mem_cons, forall_eq_or_imp]

/-! ## The checker decides scoping -/

open Surroundings

mutual

/-- What the checker accepts is well scoped. -/
private theorem Node.scoped_of_check {s : Surroundings} {labels : List Label} :
    (n : Node) → n.check s labels = .ok () → n.Scoped s labels
  | .nop, _ => .nop
  | .unreachable, _ => .unreachable
  | .const _, _ => .const
  | .ret, _ => .ret
  | .block none children, h => .sequence (scoped_of_checkAll children h)
  | .block (some label) children, h => by
    simp only [Node.check, check_bind_eq_ok_iff, checkBinding_eq_ok_iff] at h
    exact .block h.1 (scoped_of_checkAll children h.2)
  | .loop label body, h => by
    simp only [Node.check, check_bind_eq_ok_iff, checkBinding_eq_ok_iff] at h
    exact .loop h.1 (Node.scoped_of_check body h.2)
  | .ifThen _ c t, h => by
    simp only [Node.check, check_bind_eq_ok_iff] at h
    exact .ifThen (Node.scoped_of_check c h.1) (Node.scoped_of_check t h.2)
  | .ifElse _ c t e, h => by
    simp only [Node.check, check_bind_eq_ok_iff] at h
    obtain ⟨hc, ht, he⟩ := h
    exact .ifElse (Node.scoped_of_check c hc) (Node.scoped_of_check t ht)
      (Node.scoped_of_check e he)
  | .select c t e, h => by
    simp only [Node.check, check_bind_eq_ok_iff] at h
    obtain ⟨ht, he, hc⟩ := h
    exact .select (Node.scoped_of_check t ht) (Node.scoped_of_check e he)
      (Node.scoped_of_check c hc)
  | .br label, h => .br (checkTarget_eq_ok_iff.1 h)
  | .brIf label c, h => by
    simp only [Node.check, check_bind_eq_ok_iff, checkTarget_eq_ok_iff] at h
    exact .brIf h.1 (Node.scoped_of_check c h.2)
  | .brTable targets fallback index, h => by
    -- The fallback is checked as the last one of the targets.
    simp only [Node.check, check_bind_eq_ok_iff, forM_check_eq_ok_iff, checkTarget_eq_ok_iff,
      List.mem_append, List.mem_singleton] at h
    exact .brTable (fun l hl => h.1 l (.inl hl)) (h.1 fallback (.inr rfl))
      (Node.scoped_of_check index h.2)
  | .retValue e, h => .retValue (Node.scoped_of_check e h)
  | .drop e, h => .drop (Node.scoped_of_check e h)
  | .localGet index _, h => .localGet (checkLocal_eq_ok_iff.1 h)
  | .localSet index e, h => by
    simp only [Node.check, check_bind_eq_ok_iff, checkLocal_eq_ok_iff] at h
    exact .localSet h.1 (Node.scoped_of_check e h.2)
  | .localTee index _ e, h => by
    simp only [Node.check, check_bind_eq_ok_iff, checkLocal_eq_ok_iff] at h
    exact .localTee h.1 (Node.scoped_of_check e h.2)
  | .unary _ _ e, h => .unary (Node.scoped_of_check e h)
  | .binary _ _ l r, h => by
    simp only [Node.check, check_bind_eq_ok_iff] at h
    exact .binary (Node.scoped_of_check l h.1) (Node.scoped_of_check r h.2)
  | .convert _ e, h => .convert (Node.scoped_of_check e h)
  | .call callee args _, h => by
    simp only [Node.check, check_bind_eq_ok_iff, checkCall_eq_ok_iff] at h
    exact .call h.1 (scoped_of_checkAll args h.2)
termination_by structural n => n

/-- Nodes that the checker accepts one after the other are well scoped. -/
private theorem scoped_of_checkAll {s : Surroundings} {labels : List Label} :
    (ns : List Node) → checkAll s labels ns = .ok () → ∀ n ∈ ns, n.Scoped s labels
  | [], _ => by simp
  | n :: ns, h => by
    simp only [checkAll, check_bind_eq_ok_iff] at h
    exact List.forall_mem_cons.2 ⟨Node.scoped_of_check n h.1, scoped_of_checkAll ns h.2⟩
termination_by structural ns => ns

end

/-- What is well scoped passes the checker. -/
private theorem Node.Scoped.check_eq_ok {s : Surroundings} {n : Node} {labels : List Label}
    (h : n.Scoped s labels) : n.check s labels = .ok () := by
  -- One case for each rule: the parts pass by induction, and the guard is what the rule asks for.
  induction h with
  | nop | unreachable | const | ret => simp only [Node.check]
  | sequence _ ih => simpa only [Node.check, checkAll_eq_ok_iff] using ih
  | block hfresh _ ih =>
    simp only [Node.check, check_bind_eq_ok_iff, checkBinding_eq_ok_iff, checkAll_eq_ok_iff]
    exact ⟨hfresh, ih⟩
  | loop hfresh _ ih =>
    simp only [Node.check, check_bind_eq_ok_iff, checkBinding_eq_ok_iff]
    exact ⟨hfresh, ih⟩
  | ifThen _ _ hc ht =>
    simp only [Node.check, check_bind_eq_ok_iff]
    exact ⟨hc, ht⟩
  | ifElse _ _ _ hc ht he =>
    simp only [Node.check, check_bind_eq_ok_iff]
    exact ⟨hc, ht, he⟩
  | select _ _ _ ht he hc =>
    simp only [Node.check, check_bind_eq_ok_iff]
    exact ⟨ht, he, hc⟩
  | br hbound => simpa only [Node.check, checkTarget_eq_ok_iff] using hbound
  | brIf hbound _ hc =>
    simp only [Node.check, check_bind_eq_ok_iff, checkTarget_eq_ok_iff]
    exact ⟨hbound, hc⟩
  | brTable hbound hfallback _ ih =>
    simp only [Node.check, check_bind_eq_ok_iff, forM_check_eq_ok_iff, checkTarget_eq_ok_iff,
      List.mem_append, List.mem_singleton]
    refine ⟨fun l hl => ?_, ih⟩
    -- A target of the table is listed, or it is the fallback.
    rcases hl with hl | rfl
    · exact hbound l hl
    · exact hfallback
  | retValue _ ih | drop _ ih | unary _ ih | convert _ ih => simpa only [Node.check] using ih
  | localGet hdeclared => simpa only [Node.check, checkLocal_eq_ok_iff] using hdeclared
  | localSet hdeclared _ ih | localTee hdeclared _ ih =>
    simp only [Node.check, check_bind_eq_ok_iff, checkLocal_eq_ok_iff]
    exact ⟨hdeclared, ih⟩
  | binary _ _ hl hr =>
    simp only [Node.check, check_bind_eq_ok_iff]
    exact ⟨hl, hr⟩
  | call hcallee _ ih =>
    simp only [Node.check, check_bind_eq_ok_iff, checkCall_eq_ok_iff, checkAll_eq_ok_iff]
    exact ⟨hcallee, ih⟩

/-- A node passes its check if and only if it is well scoped. -/
theorem Node.check_eq_ok_iff {s : Surroundings} {labels : List Label} {n : Node} :
    n.check s labels = .ok () ↔ n.Scoped s labels :=
  ⟨Node.scoped_of_check n, Node.Scoped.check_eq_ok⟩

/-- What the body of a function is checked against within its module. -/
def Module.surroundings (m : Module) (f : Function) : Surroundings := ⟨some m, f.localCount⟩

/-- A module passes its check if and only if the body of every function is well scoped. -/
theorem Module.check_eq_ok_iff {m : Module} :
    m.check = .ok () ↔ ∀ f ∈ m.functions, f.body.Scoped (m.surroundings f) [] := by
  unfold Module.check
  rw [forM_check_eq_ok_iff]
  exact forall₂_congr fun _ _ => Node.check_eq_ok_iff

end Weir.Code
