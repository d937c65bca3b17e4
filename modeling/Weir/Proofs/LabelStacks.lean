import Mathlib.Data.List.Induction
import Weir.Lowering.Labels

/-!
# Histories of a stack of labels

A stack of labels is asked to open scopes, to close them, and for the targets of jumps. Whoever asks
it to close a scope may have the wrong one in hand: an outer scope, one that was closed before, or
one that the stack never opened. `LabelStack.run` carries out such calls in any order.

Numbers are handed out in order and never taken back. So the open scopes are numbered upwards from
the outermost one, all of them below the next number, whichever of them were closed on the way. A
scope that is to be opened never finds its number in use, and it can be opened as long as there are
numbers.

## Key results

- `LabelStack.enter_of_older`: without a higher number on the stack, opening a scope fails only for
  want of numbers
- `LabelStack.Ordered.entered`, `LabelStack.Ordered.left`: the order of the open scopes is kept
- `LabelStack.Recorded.call`, `LabelStack.recorded_run`: so are the numbers handed out, by one call
  and by any history
- `LabelStack.run_orderly`: what can be relied on after any history
-/

namespace Weir.Lowering

open Weir.Code (Label)

/-! ## Calls -/

/-- A call of an operation of a stack of labels. -/
inductive LabelCall where
  | enter (kind : ScopeKind)
  | leave (scope : LabelScope)
  | breakTarget
  | continueTarget
  deriving DecidableEq, Repr

/-- What is returned to a call. -/
inductive LabelAnswer where
  | entered (result : Except Error LabelScope)
  | left (result : Except Error Unit)
  | target (result : Except Error Label)

/-- The number that is handed out with an answer, which is that of an opened scope. -/
def LabelAnswer.number? : LabelAnswer → Option Nat
  | .entered (.ok scope) => some scope.id
  | _ => none

namespace LabelStack

/-- Carries out a call. -/
def call (s : LabelStack) : LabelCall → LabelAnswer × LabelStack
  | .enter kind => (.entered (s.enter kind).1, (s.enter kind).2)
  | .leave scope => (.left (s.leave scope).1, (s.leave scope).2)
  | .breakTarget => (.target s.breakTarget, s)
  | .continueTarget => (.target s.continueTarget, s)

/-- Carries out calls one after the other. -/
def run (s : LabelStack) : List LabelCall → List LabelAnswer × LabelStack
  | [] => ([], s)
  | c :: cs =>
    let first := s.call c
    let rest := first.2.run cs
    (first.1 :: rest.1, rest.2)

variable {s : LabelStack} {answers : List LabelAnswer}

/-- The last call of a history finds the stack that the calls before it have left behind. -/
private theorem run_concat (s : LabelStack) (calls : List LabelCall) (c : LabelCall) :
    s.run (calls ++ [c]) =
      ((s.run calls).1 ++ [((s.run calls).2.call c).1], ((s.run calls).2.call c).2) := by
  induction calls generalizing s with
  | nil => rfl
  | cons first calls ih => simp only [List.cons_append, run, ih]

/-! ## One call -/

/-- A scope is opened under the next number, unless there is none or an open scope has it. -/
theorem enter_cases (s : LabelStack) (kind : ScopeKind) :
    (limit ≤ s.next ∧ s.enter kind = (.error .labelOverflow, s)) ∨
    (s.next < limit ∧ (∃ scope ∈ s.scopes, scope.id = s.next) ∧
      s.enter kind = (.error (.labelCollision s.next), { s with next := s.next + 1 })) ∨
    (s.next < limit ∧ (∀ scope ∈ s.scopes, scope.id ≠ s.next) ∧
      s.enter kind = (.ok ⟨s.next, kind⟩, ⟨⟨s.next, kind⟩ :: s.scopes, s.next + 1⟩)) := by
  -- The limit is checked before the scopes are searched for the number.
  unfold enter
  by_cases hlimit : limit ≤ s.next
  · exact .inl ⟨hlimit, if_pos hlimit⟩
  · have hlt : s.next < limit := Nat.lt_of_not_le hlimit
    rw [if_neg hlimit]
    by_cases hused : s.scopes.any (·.id = s.next)
    · exact .inr (.inl ⟨hlt, by simpa using hused, if_pos hused⟩)
    · exact .inr (.inr ⟨hlt, by simpa using hused, if_neg hused⟩)

/-- Where all open scopes have lower numbers, only the end of the numbers prevents one more. -/
theorem enter_of_older (h : ∀ scope ∈ s.scopes, scope.id < s.next) (kind : ScopeKind) :
    s.enter kind =
      if s.next < limit then (.ok ⟨s.next, kind⟩, ⟨⟨s.next, kind⟩ :: s.scopes, s.next + 1⟩)
      else (.error .labelOverflow, s) := by
  rcases enter_cases s kind with
    ⟨hlimit, henter⟩ | ⟨-, ⟨scope, hscope, hid⟩, -⟩ | ⟨hlimit, -, henter⟩
  · rw [if_neg (Nat.not_lt_of_le hlimit), henter]
  · exact absurd hid (Nat.ne_of_lt (h scope hscope))
  · rw [if_pos hlimit, henter]

/-- The innermost scope is closed, be it the one that is asked for or not. -/
theorem leave_snd (s : LabelStack) (scope : LabelScope) :
    (s.leave scope).2 = { s with scopes := s.scopes.tail } := by
  obtain ⟨scopes, next⟩ := s
  cases scopes <;> rfl

/-- Closing succeeds if the innermost scope has the number of the given one; the kinds are not
    compared. -/
private theorem leave_fst_of_cons {innermost : LabelScope} {rest : List LabelScope}
    (h : s.scopes = innermost :: rest) (scope : LabelScope) :
    (s.leave scope).1 = if innermost.id = scope.id then .ok ()
      else .error (.scopeMismatch innermost.id scope.id) := by
  unfold leave
  rw [h]

/-- Nothing can be left if nothing has been entered. -/
private theorem leave_of_nil (h : s.scopes = []) (scope : LabelScope) :
    s.leave scope = (.error .scopeUnderflow, s) := by
  unfold leave
  rw [h]

/-- A break leads to the end of the innermost scope. -/
theorem breakTarget_eq_ok_iff {label : Label} :
    s.breakTarget = .ok label ↔
      ∃ innermost rest, s.scopes = innermost :: rest ∧ label = innermost.label .exit := by
  unfold breakTarget
  cases s.scopes with
  | nil => simp
  | cons innermost rest => simp [eq_comm]

/-- A break is refused where there is no scope. -/
theorem breakTarget_eq_error_iff {e : Error} :
    s.breakTarget = .error e ↔ s.scopes = [] ∧ e = .breakOutsideScope := by
  unfold breakTarget
  cases s.scopes with
  | nil => simp [eq_comm]
  | cons innermost rest => simp

/-- The innermost loop is the one inside which only switches are open. -/
private theorem find?_loop_eq_some_iff {scopes : List LabelScope} {loop : LabelScope} :
    scopes.find? (·.kind = .loop) = some loop ↔
      ∃ inner outer, scopes = inner ++ loop :: outer ∧
        (∀ scope ∈ inner, scope.kind ≠ .loop) ∧ loop.kind = .loop := by
  rw [List.find?_eq_some_iff_append]
  simp [and_comm, and_left_comm]

/-- A continue leads to the next round of the innermost loop. -/
theorem continueTarget_eq_ok_iff {label : Label} :
    s.continueTarget = .ok label ↔
      ∃ inner loop outer, s.scopes = inner ++ loop :: outer ∧
        (∀ scope ∈ inner, scope.kind ≠ .loop) ∧ loop.kind = .loop ∧
          label = loop.label .next := by
  unfold continueTarget
  constructor
  · intro h
    cases hfind : s.scopes.find? (·.kind = .loop) with
    | none =>
      rw [hfind] at h
      cases h
    | some loop =>
      rw [hfind] at h
      cases h
      obtain ⟨inner, outer, hscopes, hinner, hloop⟩ := find?_loop_eq_some_iff.1 hfind
      exact ⟨inner, loop, outer, hscopes, hinner, hloop, rfl⟩
  · rintro ⟨inner, loop, outer, hscopes, hinner, hloop, rfl⟩
    rw [find?_loop_eq_some_iff.2 ⟨inner, outer, hscopes, hinner, hloop⟩]

/-- A continue is refused where no scope is a loop. -/
theorem continueTarget_eq_error_iff {e : Error} :
    s.continueTarget = .error e ↔
      (∀ scope ∈ s.scopes, scope.kind ≠ .loop) ∧ e = .continueOutsideLoop := by
  have hnone : (∀ scope ∈ s.scopes, scope.kind ≠ .loop) ↔
      s.scopes.find? (·.kind = .loop) = none := by
    simp
  rw [hnone]
  unfold continueTarget
  cases s.scopes.find? (·.kind = .loop) with
  | none => simp [eq_comm]
  | some loop => simp

/-! ## The order of the scopes -/

/-- The open scopes have decreasing numbers from the innermost outward, below the next one. -/
structure Ordered (s : LabelStack) : Prop where
  next_le : s.next ≤ limit
  older : ∀ scope ∈ s.scopes, scope.id < s.next
  decreasing : s.scopes.Pairwise fun inner outer => outer.id < inner.id

namespace Ordered

/-- The empty stack is in order. -/
theorem empty : ({} : LabelStack).Ordered :=
  ⟨Nat.zero_le _, List.forall_mem_nil _, .nil⟩

/-- The scope that is opened next has the highest number. -/
theorem entered (h : s.Ordered) (hlimit : s.next < limit) (kind : ScopeKind) :
    Ordered ⟨⟨s.next, kind⟩ :: s.scopes, s.next + 1⟩ where
  next_le := hlimit
  older := List.forall_mem_cons.2
    ⟨Nat.lt_succ_self _, fun scope hscope => Nat.lt_succ_of_lt (h.older scope hscope)⟩
  decreasing := List.pairwise_cons.2 ⟨h.older, h.decreasing⟩

/-- The number of a scope that is closed does not become available again. -/
theorem left (h : s.Ordered) : Ordered { s with scopes := s.scopes.tail } where
  next_le := h.next_le
  older scope hscope := h.older scope (List.mem_of_mem_tail hscope)
  decreasing := h.decreasing.tail

end Ordered

/-! ## Histories -/

/-- After a history with these answers the stack is in order. The numbers handed out are those below
    the next one, and none of them was found to be in use. -/
structure Recorded (answers : List LabelAnswer) (s : LabelStack) : Prop extends s.Ordered where
  numbers : answers.filterMap LabelAnswer.number? = List.range s.next
  noCollision : ∀ id, .entered (.error (.labelCollision id)) ∉ answers

namespace Recorded

/-- The record stays the same where no number is handed out. -/
private theorem concat {s' : LabelStack} {answer : LabelAnswer} (h : Recorded answers s)
    (hordered : s'.Ordered) (hnext : s'.next = s.next) (hnumber : answer.number? = none)
    (hanswer : ∀ id, answer ≠ .entered (.error (.labelCollision id))) :
    Recorded (answers ++ [answer]) s' where
  toOrdered := hordered
  numbers := by simp [hnumber, h.numbers, hnext]
  noCollision id := by simp [h.noCollision id, (hanswer id).symm]

/-- Any one call keeps the record, whatever scope it asks for. -/
theorem call (h : Recorded answers s) (c : LabelCall) :
    Recorded (answers ++ [(s.call c).1]) (s.call c).2 := by
  cases c with
  | enter kind =>
    simp only [LabelStack.call, enter_of_older h.older]
    split
    next hlimit =>
      -- The number that is handed out is the next one, and becomes the last one of the record.
      refine ⟨h.toOrdered.entered hlimit kind, ?_, fun id => ?_⟩
      · rw [List.filterMap_append, h.numbers, List.range_succ]
        rfl
      · simp [h.noCollision id]
    next => exact h.concat h.toOrdered rfl rfl fun id heq => by cases heq
  | leave scope =>
    simp only [LabelStack.call, leave_snd]
    exact h.concat h.toOrdered.left rfl rfl fun id heq => by cases heq
  | breakTarget => exact h.concat h.toOrdered rfl rfl fun id heq => by cases heq
  | continueTarget => exact h.concat h.toOrdered rfl rfl fun id heq => by cases heq

end Recorded

/-- Every history of calls is on record. -/
theorem recorded_run (calls : List LabelCall) : Recorded (run {} calls).1 (run {} calls).2 := by
  -- By induction on the last call: what it finds is the record of the calls before it.
  induction calls using List.reverseRecOn with
  | nil => exact ⟨.empty, rfl, fun _ => List.not_mem_nil⟩
  | append_singleton calls c ih =>
    rw [run_concat]
    exact ih.call c

/-- After any history of calls, with any scopes to be closed, the numbers of the open scopes go up
    from the outermost one to the innermost, below the next number; no number was handed out twice.
    No number was ever found in use, and a scope can be opened unless the numbers have run out, in
    which case the stack is left alone. Closing takes the innermost scope away, also if another one
    is meant, and does nothing where none is open. A `break` goes to the end of the innermost scope
    and a `continue` to the next round of the innermost loop; each fails exactly where there is no
    such scope. -/
theorem run_orderly (calls : List LabelCall) :
    let answers := (run {} calls).1
    let stack := (run {} calls).2
    -- The numbers of the scopes that are open, and of all that ever were.
    ((stack.scopes.reverse.map LabelScope.id).Pairwise (· < ·) ∧
      (∀ scope ∈ stack.scopes, scope.id < stack.next) ∧ stack.next ≤ limit ∧
      answers.filterMap LabelAnswer.number? = List.range stack.next ∧
      (answers.filterMap LabelAnswer.number?).Nodup) ∧
    -- One scope more, and one less.
    ((∀ id, .entered (.error (.labelCollision id)) ∉ answers) ∧
      ∀ kind, stack.enter kind =
        if stack.next < limit then
          (.ok ⟨stack.next, kind⟩, ⟨⟨stack.next, kind⟩ :: stack.scopes, stack.next + 1⟩)
        else (.error .labelOverflow, stack)) ∧
    ((∀ scope innermost rest, stack.scopes = innermost :: rest →
        (stack.leave scope).2 = { stack with scopes := rest } ∧
        (stack.leave scope).1 = if innermost.id = scope.id then .ok ()
          else .error (.scopeMismatch innermost.id scope.id)) ∧
      ∀ scope, stack.scopes = [] → stack.leave scope = (.error .scopeUnderflow, stack)) ∧
    -- The targets of jumps.
    ((∀ label, stack.breakTarget = .ok label ↔
        ∃ innermost rest, stack.scopes = innermost :: rest ∧ label = innermost.label .exit) ∧
      ∀ e, stack.breakTarget = .error e ↔ stack.scopes = [] ∧ e = .breakOutsideScope) ∧
    ((∀ label, stack.continueTarget = .ok label ↔
        ∃ inner loop outer, stack.scopes = inner ++ loop :: outer ∧
          (∀ scope ∈ inner, scope.kind ≠ .loop) ∧ loop.kind = .loop ∧
            label = loop.label .next) ∧
      ∀ e, stack.continueTarget = .error e ↔
        (∀ scope ∈ stack.scopes, scope.kind ≠ .loop) ∧ e = .continueOutsideLoop) := by
  intro answers stack
  have h : Recorded answers stack := recorded_run calls
  refine ⟨⟨?_, h.older, h.next_le, h.numbers, ?_⟩, ⟨h.noCollision, enter_of_older h.older⟩,
    ⟨?_, ?_⟩, ⟨fun _ => breakTarget_eq_ok_iff, fun _ => breakTarget_eq_error_iff⟩,
    ⟨fun _ => continueTarget_eq_ok_iff, fun _ => continueTarget_eq_error_iff⟩⟩
  · rw [List.pairwise_map, List.pairwise_reverse]
    exact h.decreasing
  · rw [h.numbers]
    exact List.nodup_range
  · intro scope innermost rest hscopes
    refine ⟨?_, leave_fst_of_cons hscopes scope⟩
    rw [leave_snd, hscopes, List.tail_cons]
  · intro scope hscopes
    exact leave_of_nil hscopes scope

/-- Of two loops the outer one is closed first, which takes the inner one away. Then a switch is
    opened, and a scope is closed that the stack never opened. -/
theorem strayed_leave :
    let calls : List LabelCall := [.enter .loop, .enter .loop, .leave ⟨0, .loop⟩, .enter .switch]
    let answers := (run {} calls).1
    let stack := (run {} calls).2
    stack.scopes = [⟨2, .switch⟩, ⟨0, .loop⟩] ∧
      answers.filterMap LabelAnswer.number? = [0, 1, 2] ∧
      stack.leave ⟨7, .loop⟩ = (.error (.scopeMismatch 2 7), ⟨[⟨0, .loop⟩], 3⟩) ∧
      stack.continueTarget = .ok ⟨.next, 0⟩ := by
  intro calls answers stack
  have hscopes : stack.scopes = [⟨2, .switch⟩, ⟨0, .loop⟩] := rfl
  -- All parts come from the theorem about sequences of calls.
  obtain ⟨⟨-, -, -, hnumbers, -⟩, -, ⟨hleave, -⟩, -, ⟨hcontinue, -⟩⟩ := run_orderly calls
  obtain ⟨hrest, hanswer⟩ := hleave ⟨7, .loop⟩ _ _ hscopes
  refine ⟨hscopes, hnumbers, Prod.ext hanswer hrest, ?_⟩
  exact (hcontinue _).2 ⟨[⟨2, .switch⟩], ⟨0, .loop⟩, [], hscopes, by simp, rfl, rfl⟩

end LabelStack

end Weir.Lowering
