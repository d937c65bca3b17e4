import Weir.Proofs.Accesses
import Weir.Proofs.Execution

/-!
# Owners of locals

A local belongs to a parameter, to a declarator or to the condition of a switch. `functionOwners`
goes through a function in the states of lowering and lists these owners, each with the number that
the next local has in its place and with the code that it is lowered to. What such an owner may
expect of the body of the function is said by `Owner.Owns`.

## Main definitions

- `Owner`, `owners`, `functionOwners`: the owners of the locals of a function in order
- `Node.innermost`: the innermost block at the beginning of a node
- `Owner.Owns`: a constant is written by its declaration only, and the condition of a switch by the
  first node of its innermost block only, and it is read in its dispatch only

## Key results

- `Owner.Owns.mono`: other code that does not interfere with an owner may be added
-/

namespace Weir.Code

mutual

/-- What the innermost one of the blocks holds that begin with each other, for a block. -/
def Node.innermost : Node → Option (List Node)
  | .block _ ns => some (innermostOf ns)
  | _ => none
termination_by structural n => n

/-- What the innermost block at the beginning holds, or the nodes themselves if they do not begin
    with a block. -/
def innermostOf : List Node → List Node
  | [] => []
  | n :: ns => n.innermost.getD (n :: ns)
termination_by structural ns => ns

end

end Weir.Code

namespace Weir.Lowering

open Weir.Code (Local Node)
open Weir.Source (Clause Declarator Stmt)

/-! ## Owners -/

/-- What a local is for, with the code that it is lowered to. -/
inductive Origin where
  | parameter
  | declarator (isConst : Bool) (sets : List Node)
  | condition (switch : Node)

/-- What has a local of its own: its number, its name and what it is for. -/
structure Owner where
  index : Nat
  name : String
  origin : Origin

/-- What a step of lowering returns, if it does not fail. -/
def Lower.resultD {α : Type} (step : Lower α) (fallback : α) (st : State) : α :=
  match step st with
  | .ok a _ => a
  | .error _ _ => fallback

theorem Lower.resultD_of_ok {α : Type} {step : Lower α} {fallback a : α} {st st' : State}
    (h : step st = .ok a st') : step.resultD fallback st = a := by
  unfold Lower.resultD
  rw [h]

variable (fc : FunctionContext)

/-- The owners in a declaration. -/
def declaratorOwners (isConst : Bool) : List Declarator → State → List Owner
  | [], _ => []
  | d :: ds, st =>
    let step := lowerDeclarator fc isConst d
    ⟨st.locals.length, d.ident.name, .declarator isConst (step.resultD [] st)⟩ ::
      declaratorOwners isConst ds (step.after st)

mutual

/-- The owners in a statement that is lowered in a state. -/
def owners : Stmt → State → List Owner
  | .varDecl _ kind ds, st => declaratorOwners fc (kind = .constVar) ds st
  | .ifStmt _ _ t e, st => owners t st ++ ownersOption e ((lower fc t).after st)
  | .forStmt _ init _ _ body, st =>
    let inner := ((lowerOption fc init).after st.opened).entered .loop
    ownersOption init st.opened ++ ownersOption body inner
  | .whileStmt _ _ body, st => ownersOption body (st.entered .loop)
  | .doWhile _ body _, st => owners body (st.entered .loop)
  | .block _ ss, st => ownersAll ss st.opened
  -- A switch without clauses has no condition to keep.
  | .switchStmt _ _ [], _ => []
  | .switchStmt span d clauses, st =>
    ⟨st.locals.length, "condition$" ++ toString st.labels.next,
        .condition ((lower fc (.switchStmt span d clauses)).resultD .nop st)⟩ ::
      ownersClauses clauses (st.switched fc d)
  | .exprStmt .., _ | .returnStmt .., _ | .breakStmt _, _ | .continueStmt _, _ | .empty _, _ => []
termination_by structural s => s

/-- The owners in a statement that may be missing. -/
def ownersOption : Option Stmt → State → List Owner
  | none, _ => []
  | some s, st => owners s st
termination_by structural s => s

/-- The owners in statements one after the other. -/
def ownersAll : List Stmt → State → List Owner
  | [], _ => []
  | s :: ss, st => owners s st ++ ownersAll ss ((lower fc s).after st)
termination_by structural ss => ss

/-- The owners in the bodies of clauses. -/
def ownersClauses : List Clause → State → List Owner
  | [], _ => []
  | .mk _ body _ :: clauses, st =>
    ownersAll body st ++ ownersClauses clauses ((lowerAll fc body).after st)
termination_by structural clauses => clauses

end

/-- The owners of the locals of a function: its parameters, and what is in its body. -/
def functionOwners (settings : Settings) (functions : FunctionTable) (f : Source.Function) :
    List Owner :=
  let params : List Local := f.params.map fun p => ⟨p.name, p.ty.slot settings.width⟩
  let start := (bindParams f.span 0 f.params).after { locals := params }
  f.params.mapIdx (fun i p => ⟨i, p.name, .parameter⟩) ++
    ownersAll ⟨settings, functions, f.result⟩ f.body start

/-! ## What belongs to an owner -/

/-- The local of the owner is only accessed as it is meant to be in the nodes of a body. The local
    of a variable is set where it is declared, and that of a constant nowhere else. The local of a
    switch is set by the first node of the innermost block of the switch and nowhere else, and it is
    read in the dispatch that follows there and nowhere else. -/
def Owner.Owns (o : Owner) (nodes : List Node) : Prop :=
  -- Parameters are set by the caller, so nothing is asked of them.
  match o.origin with
  | .parameter => True
  | .declarator isConst sets => ∃ value, sets = [.localSet o.index value] ∧
      .localSet o.index value ∈ nodes ∧
      (isConst → nodes.filter (·.writes o.index) = [.localSet o.index value])
  | .condition switch => ∃ value targets fallback dispatch, switch ∈ nodes ∧
      switch.innermost =
        some [.localSet o.index value, .brTable targets fallback dispatch] ∧
      nodes.filter (·.writes o.index) = [.localSet o.index value] ∧
      nodes.filter (·.reads o.index) = dispatch.subnodes.filter (·.reads o.index)

/-- Whether a node interferes with an owner where it is not part of the code of that owner. -/
def Owner.interferes (o : Owner) (n : Node) : Bool :=
  match o.origin with
  | .parameter => false
  | .declarator isConst _ => isConst && n.writes o.index
  | .condition _ => n.writes o.index || n.reads o.index

/-- Bodies that agree on some nodes agree on fewer nodes. -/
theorem filter_eq_of_imp {p q : Node → Bool} {ns ms : List Node} (hpq : ∀ n, p n → q n)
    (h : ms.filter q = ns.filter q) : ms.filter p = ns.filter p := by
  have hfilter : ∀ l : List Node, l.filter p = (l.filter q).filter p := by
    intro l
    rw [List.filter_filter]
    refine List.filter_congr fun n _ => ?_
    cases hn : p n with
    | true => rw [hpq n hn]; rfl
    | false => rfl
  rw [hfilter ms, h, ← hfilter ns]

namespace Owner

variable {o : Owner} {n : Node} {ns ms : List Node}

/-- Only an access to the local of an owner interferes with it. -/
theorem not_interferes (hwrites : n.writes o.index = false) (hreads : n.reads o.index = false) :
    o.interferes n = false := by
  unfold interferes
  rw [hwrites, hreads]
  cases o.origin <;> simp

/-- What interferes with an owner is an access. -/
theorem isAccess_of_interferes (h : o.interferes n) : n.isAccess := by
  cases hwrites : n.writes o.index with
  | true => exact Node.isAccess_of_writes hwrites
  | false =>
    cases hreads : n.reads o.index with
    | true => exact Node.isAccess_of_reads hreads
    | false =>
      rw [not_interferes hwrites hreads] at h
      cases h

/-- What belongs to an owner still does in a larger body, if nothing that is added to the body
    interferes. Nodes that do nothing may have been left out. -/
theorem Owns.mono (h : o.Owns ns) (hkept : ∀ n ∈ ns, n ∈ ms ∨ n = .nop)
    (hfilter : ms.filter o.interferes = ns.filter o.interferes) : o.Owns ms := by
  unfold Owns at h ⊢
  -- In each case the nodes in question are among those that interfere, which the two bodies share.
  cases horigin : o.origin with
  | parameter => trivial
  | declarator isConst sets =>
    rw [horigin] at h
    obtain ⟨value, hsets, hmem, hwrites⟩ := h
    refine ⟨value, hsets, (hkept _ hmem).resolve_right (by simp), fun hconst => ?_⟩
    rw [← hwrites hconst]
    refine filter_eq_of_imp (fun n hn => ?_) hfilter
    rw [interferes, horigin]
    exact Bool.and_eq_true_iff.2 ⟨hconst, hn⟩
  | condition switch =>
    rw [horigin] at h
    obtain ⟨value, targets, fallback, dispatch, hmem, hinnermost, hwrites, hreads⟩ := h
    have hswitch : switch ≠ .nop := by
      rintro rfl
      cases hinnermost
    refine ⟨value, targets, fallback, dispatch, (hkept _ hmem).resolve_right hswitch, hinnermost,
      ?_, ?_⟩
    · rw [← hwrites]
      refine filter_eq_of_imp (fun n hn => ?_) hfilter
      rw [interferes, horigin]
      exact Bool.or_eq_true_iff.2 (.inl hn)
    · rw [← hreads]
      refine filter_eq_of_imp (fun n hn => ?_) hfilter
      rw [interferes, horigin]
      exact Bool.or_eq_true_iff.2 (.inr hn)

end Owner

end Weir.Lowering
