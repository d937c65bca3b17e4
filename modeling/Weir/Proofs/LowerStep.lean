import Weir.Lowering.Statement
import Weir.Proofs.LabelStacks

/-!
# Steps of lowering

What each statement is lowered to, and in which states its parts are lowered. The lemmas take a
lowering that succeeded apart, so that nothing else has to open the definition of `lower`.

## Key results

- `lower_while`, `lower_doWhile`, `lower_for`, `lower_switch` and their siblings: the parts of a
  lowered statement
- `lowerClauses_cons`, `dispatchNode_eq_ok`: the parts of a lowered switch
- `LabelStack.breakTarget_eq_ok`, `LabelStack.continueTarget_eq_ok`: where jumps go
-/

namespace Weir.Lowering

open Weir.Code (Local Node Slot Value)
open Weir.Source (Clause Declarator Expr PointerWidth Span Stmt Ty)

/-! ## States -/

/-- What expressions are compiled in. -/
def FunctionContext.context (fc : FunctionContext) (st : State) : Context :=
  ⟨fc.settings.width, fc.functions, st.bindings⟩

namespace State

/-- The state with further reports. -/
def noting (st : State) (reports : List Diagnostic) : State :=
  { st with reports := st.reports ++ reports }

/-- The state inside a new scope of variables. -/
def opened (st : State) : State := { st with bindings := [] :: st.bindings }

/-- The state outside its innermost scope of variables. -/
def closed (st : State) : State := { st with bindings := st.bindings.tail }

/-- The scope of labels that is opened next. -/
def nextScope (st : State) (kind : ScopeKind) : LabelScope := ⟨st.labels.next, kind⟩

/-- The state inside a new scope of labels. -/
def entered (st : State) (kind : ScopeKind) : State :=
  { st with labels := ⟨st.nextScope kind :: st.labels.scopes, st.labels.next + 1⟩ }

/-- The state outside its innermost scope of labels. -/
def left (st : State) : State :=
  { st with labels := { st.labels with scopes := st.labels.scopes.tail } }

/-- The state with one more local. -/
def declared (st : State) (name : String) (slot : Slot) : State :=
  { st with locals := st.locals ++ [⟨name, slot⟩] }

/-- The state with a variable bound in its innermost scope. -/
def bound (st : State) (name : String) (v : Variable) : State :=
  { st with bindings := st.bindings.bind name v }

@[simp] theorem noting_nil (st : State) : st.noting [] = st := by
  simp [noting]

@[simp] theorem noting_noting (st : State) (ds es : List Diagnostic) :
    (st.noting ds).noting es = st.noting (ds ++ es) := by
  simp [noting]

/-- Where nothing is added to the reports the state is the same. -/
theorem noting_eq_self {st : State} {ds : List Diagnostic}
    (h : (st.noting ds).reports = st.reports) : st.noting ds = st := by
  have hnil : ds = [] := List.append_right_eq_self.1 h
  rw [hnil, noting_nil]

/-- A local that is declared is the last one. -/
theorem slot_declared (st : State) (name : String) (slot : Slot) :
    (st.declared name slot).locals[st.locals.length]?.map Local.slot = some slot := by
  unfold declared
  rw [List.getElem?_append_right (Nat.le_refl _), Nat.sub_self]
  rfl

end State

namespace LabelStack

variable {stack : LabelStack} {label : Code.Label}

/-- A break goes to the end of a scope that is open. -/
theorem breakTarget_eq_ok (h : stack.breakTarget = .ok label) :
    ∃ s ∈ stack.scopes, label = s.label .exit := by
  obtain ⟨innermost, rest, hscopes, rfl⟩ := breakTarget_eq_ok_iff.1 h
  rw [hscopes]
  exact ⟨innermost, List.mem_cons_self, rfl⟩

/-- A continue goes to the next round of a loop whose scope is open. -/
theorem continueTarget_eq_ok (h : stack.continueTarget = .ok label) :
    ∃ s ∈ stack.scopes, s.kind = .loop ∧ label = s.label .next := by
  obtain ⟨inner, loop, outer, hscopes, -, hkind, rfl⟩ := continueTarget_eq_ok_iff.1 h
  rw [hscopes]
  exact ⟨loop, List.mem_append_right _ List.mem_cons_self, hkind, rfl⟩

end LabelStack

/-! ## Steps -/

namespace Lower

variable {α β : Type} {st st' : State} {fc : FunctionContext}

/-- A bind that succeeds is two steps that succeed, one after the other. -/
theorem bind_eq_ok {x : Lower α} {f : α → Lower β} {b : β} (h : (x >>= f) st = .ok b st') :
    ∃ a st₁, x st = .ok a st₁ ∧ f a st₁ = .ok b st' := by
  simp only [bind, EStateM.bind] at h
  cases hx : x st with
  | ok a st₁ => rw [hx] at h; exact ⟨a, st₁, rfl, h⟩
  | error e st₁ => rw [hx] at h; cases h

/-- What runs between the braces of a block runs in an opened state, which is closed after it. -/
theorem withVariables_eq_ok {run : Lower α} {a : α} (h : withVariables run st = .ok a st') :
    ∃ st₁, run st.opened = .ok a st₁ ∧ st' = st₁.closed := by
  unfold withVariables at h
  cases hrun : run { st with bindings := [] :: st.bindings } with
  | ok b st₁ => rw [hrun] at h; cases h; exact ⟨st₁, hrun, rfl⟩
  | error e st₁ => rw [hrun] at h; cases h

/-- A scope that can be opened has the next number, which no open scope has. -/
private theorem enter_eq_ok {kind : ScopeKind} {scope : LabelScope} {labels : LabelStack}
    (h : st.labels.enter kind = (.ok scope, labels)) :
    scope = st.nextScope kind ∧ st.entered kind = { st with labels } ∧
      ∀ s ∈ st.labels.scopes, s.id ≠ st.labels.next := by
  -- A number that an open scope has is refused as a collision.
  rcases st.labels.enter_cases kind with ⟨-, henter⟩ | ⟨-, -, henter⟩ | ⟨-, hfresh, henter⟩
  · rw [henter] at h
    cases h
  · rw [henter] at h
    cases h
  · rw [henter] at h
    cases h
    exact ⟨rfl, rfl, hfresh⟩

/-- Only the innermost scope is closed. -/
private theorem leave_eq_ok {scope : LabelScope} {labels : LabelStack}
    (h : st.labels.leave scope = (.ok (), labels)) : st.left = { st with labels } := by
  have hlabels := LabelStack.leave_snd st.labels scope
  rw [h] at hlabels
  exact congrArg (fun labels => { st with labels }) hlabels.symm

/-- What runs inside a label scope runs in the entered state, under an id no open scope has. -/
private theorem withLabels_eq_ok {kind : ScopeKind} {run : LabelScope → Lower α} {a : α}
    (h : withLabels kind run st = .ok a st') :
    ∃ st₁, run (st.nextScope kind) (st.entered kind) = .ok a st₁ ∧
      (∀ s ∈ st.labels.scopes, s.id ≠ st.labels.next) ∧ st' = st₁.left := by
  unfold withLabels at h
  -- Entering fails at the last id, and where an open scope has the next one.
  split at h
  next => cases h
  next scope labels henter =>
    obtain ⟨rfl, hentered, hfresh⟩ := enter_eq_ok henter
    rw [hentered]
    split at h
    next b st₁ hrun =>
      split at h
      -- Whatever ran inside has to leave the scope it was given.
      next labels' hleave =>
        cases h
        exact ⟨st₁, hrun, hfresh, (leave_eq_ok hleave).symm⟩
      next => cases h
    next => cases h

/-- A computation without state succeeds with its value and leaves the state alone. -/
private theorem ofExcept_eq_ok {r : Except Error α} {a : α} (h : ofExcept r st = .ok a st') :
    r = .ok a ∧ st' = st := by
  cases r with
  | ok b => cases h; exact ⟨rfl, rfl⟩
  | error e => cases h

/-- Binding a variable binds it in any case, and reports where the scope has the name already. -/
theorem bindVariable_eq_ok {name : String} {v : Variable} {span : Span} {u : Unit}
    (h : bindVariable name v span st = .ok u st') :
    ∃ reports, st' = (st.bound name v).noting reports := by
  obtain ⟨s, st₁, hget, h⟩ := bind_eq_ok h
  cases hget
  obtain ⟨_, st₂, hset, h⟩ := bind_eq_ok h
  cases hset
  -- Only the report depends on whether the name is taken.
  split at h
  · cases h
    exact ⟨_, rfl⟩
  · cases h
    exact ⟨[], (State.noting_nil _).symm⟩

end Lower

/-! ## Statements without statements in them -/

section

variable {fc : FunctionContext} {st st' : State} {n : Node}

/-- An expression statement is its code with the value dropped. -/
theorem lower_exprStmt {span : Span} {e : Expr} (h : lower fc (.exprStmt span e) st = .ok n st') :
    let r := compileDiscarded (fc.context st) e
    n = r.value ∧ st' = st.noting r.reports := by
  cases h
  exact ⟨rfl, rfl⟩

theorem lower_empty {span : Span} (h : lower fc (.empty span) st = .ok n st') :
    n = .nop ∧ st' = st := by
  cases h
  exact ⟨rfl, rfl⟩

/-- A `break` branches to the innermost target there is for it. -/
theorem lower_break {span : Span} (h : lower fc (.breakStmt span) st = .ok n st') :
    ∃ label, st.labels.breakTarget = .ok label ∧ n = .br label ∧ st' = st := by
  obtain ⟨s, st₁, hget, h⟩ := Lower.bind_eq_ok h
  cases hget
  obtain ⟨label, st₂, hlabel, h⟩ := Lower.bind_eq_ok h
  cases h
  obtain ⟨htarget, rfl⟩ := Lower.ofExcept_eq_ok hlabel
  exact ⟨label, htarget, rfl, rfl⟩

/-- A `continue` branches to the innermost loop's target. -/
theorem lower_continue {span : Span} (h : lower fc (.continueStmt span) st = .ok n st') :
    ∃ label, st.labels.continueTarget = .ok label ∧ n = .br label ∧ st' = st := by
  obtain ⟨s, st₁, hget, h⟩ := Lower.bind_eq_ok h
  cases hget
  obtain ⟨label, st₂, hlabel, h⟩ := Lower.bind_eq_ok h
  cases h
  obtain ⟨htarget, rfl⟩ := Lower.ofExcept_eq_ok hlabel
  exact ⟨label, htarget, rfl, rfl⟩

/-- Compiles the value that a function returns, for its result type. -/
def compileReturned (ctx : Context) (e : Expr) (result : Ty) : Reported Node := do
  let c ← compile ctx e result
  convertImplicit ctx.width c.node c.ty result e.span

/-- A `return` statement returns, with a value where the function has a result. Where it does not
    fit the function it is reported, and a node without control stands for it. -/
theorem lower_return {value : Option Expr} {span : Span}
    (h : lower fc (.returnStmt span value) st = .ok n st') :
    (∃ e, value = some e ∧ fc.result.isVoid = false ∧
        n = .retValue (compileReturned (fc.context st) e fc.result).value ∧
        st' = st.noting (compileReturned (fc.context st) e fc.result).reports) ∨
      (value = none ∧ fc.result.isVoid ∧ n = .ret ∧ st' = st) ∨
      n = poison fc ∧ ∃ d, st' = st.noting [d] := by
  simp only [lower, lowerReturn] at h
  cases value with
  | some e =>
    cases hvoid : fc.result.isVoid with
    | true =>
      simp only [hvoid, if_true] at h
      cases h
      -- The function has no result.
      exact .inr (.inr ⟨rfl, _, rfl⟩)
    | false =>
      simp only [hvoid, Bool.false_eq_true, if_false] at h
      cases h
      exact .inl ⟨e, rfl, rfl, rfl, rfl⟩
  -- Without a value the function must have no result.
  | none =>
    cases hvoid : fc.result.isVoid with
    | true =>
      simp only [hvoid, if_true] at h
      cases h
      exact .inr (.inl ⟨rfl, rfl, rfl, rfl⟩)
    | false =>
      simp only [hvoid, Bool.false_eq_true, if_false] at h
      cases h
      exact .inr (.inr ⟨rfl, _, rfl⟩)

/-- The type that a declarator gives its variable, where it gives one. -/
def declaredType? (d : Declarator) : Option Ty :=
  if d.declared = some .void then none else d.declared

/-- The nodes that give a new local its initial value. -/
def initialNodes (index : Nat) (initial : Option Node) (slot : Slot) : List Node :=
  match initial, Value.zero? slot with
  | some node, _ => [.localSet index node]
  | none, some zero => [.localSet index (.const zero)]
  | none, none => []

/-- The initial value of a variable is compiled, and converted to the type of the variable if it is
    not the type of the value anyway. -/
theorem compileInitial_eq_some {ctx : Context} {d : Declarator} {declared : Option Ty}
    (h : (compileInitial ctx d declared).value.1 = some n) :
    ∃ e expected, let c := (compile ctx e expected).value
      let t := (compileInitial ctx d declared).value.2
      n = coerce ctx.width c.node c.ty t ∨ (n = c.node ∧ t = c.ty) := by
  unfold compileInitial at h ⊢
  cases hinit : d.init with
  | none =>
    cases declared <;> simp only [hinit] at h <;> cases h
  | some e =>
    cases declared with
    | some t =>
      simp only [hinit, Reported.value_bind, convertImplicit_value] at h ⊢
      cases h
      exact ⟨e, t, .inl rfl⟩
    | none =>
      simp only [hinit, Reported.value_bind] at h ⊢
      refine ⟨e, .void, ?_⟩
      split at h
      next hvoid =>
        rw [if_pos hvoid]
        cases h
        exact .inl (convertExplicit_value ..)
      next hvoid =>
        rw [if_neg hvoid]
        cases h
        exact .inr ⟨rfl, rfl⟩

/-- Declares the variable of a declarator and gives it its initial value. -/
def declareVariable (fc : FunctionContext) (isConst : Bool) (d : Declarator) :
    Lower (List Node) := do
  let (initial, t) ← Lower.compiling fc fun ctx => compileInitial ctx d (declaredType? d)
  let index ← Lower.declare d.ident.name (t.slot fc.settings.width)
  Lower.bindVariable d.ident.name ⟨index, t, isConst⟩ d.ident.span
  match initial, Value.zero? (t.slot fc.settings.width) with
  | some node, _ => pure [.localSet index node]
  | none, some zero => pure [.localSet index (.const zero)]
  | none, none => pure []

/-- A declarator declares its variable, after a report if it gives it the type `void`. -/
theorem lowerDeclarator_eq (fc : FunctionContext) (isConst : Bool) (d : Declarator) :
    lowerDeclarator fc isConst d = (do
      if d.declared = some .void then Lower.report .voidValue d.ident.span
      declareVariable fc isConst d) := by
  unfold lowerDeclarator declareVariable declaredType?
  rfl

/-- A declaration allots the next local and then binds the variable to it, with the initial value
    compiled before either. -/
private theorem declareVariable_eq_ok (st : State) (ds : List Diagnostic) {isConst : Bool}
    {d : Declarator} {ns : List Node}
    (h : declareVariable fc isConst d (st.noting ds) = .ok ns st') :
    let r := (compileInitial (fc.context st) d (declaredType? d)).value
    ns = initialNodes st.locals.length r.1 (r.2.slot fc.settings.width) ∧
      ∃ reports, st' = ((st.declared d.ident.name (r.2.slot fc.settings.width)).bound d.ident.name
        ⟨st.locals.length, r.2, isConst⟩).noting reports := by
  obtain ⟨r, st₁, hcompile, h⟩ := Lower.bind_eq_ok h
  have hr : r = (compileInitial (fc.context st) d (declaredType? d)).value := by
    cases hcompile
    rfl
  obtain ⟨es, rfl⟩ : ∃ es, st₁ = st.noting es := by
    cases hcompile
    exact ⟨_, State.noting_noting st ds _⟩
  obtain ⟨index, st₂, hindex, h⟩ := Lower.bind_eq_ok h
  cases hindex
  obtain ⟨u, st₃, hbind, h⟩ := Lower.bind_eq_ok h
  obtain ⟨fs, rfl⟩ := Lower.bindVariable_eq_ok hbind
  -- Only the nodes depend on whether there is an initial value, the state does not.
  have hnodes : ns = initialNodes st.locals.length r.1 (r.2.slot fc.settings.width) ∧
      st' = (((st.declared d.ident.name (r.2.slot fc.settings.width)).bound d.ident.name
        ⟨st.locals.length, r.2, isConst⟩).noting es).noting fs := by
    unfold initialNodes
    cases hinitial : r.1 with
    | some node =>
      simp only [hinitial] at h ⊢
      cases h
      exact ⟨rfl, rfl⟩
    | none =>
      cases hzero : Value.zero? (r.2.slot fc.settings.width) with
      | some zero =>
        simp only [hinitial, hzero] at h ⊢
        cases h
        exact ⟨rfl, rfl⟩
      | none =>
        simp only [hinitial, hzero] at h ⊢
        cases h
        exact ⟨rfl, rfl⟩
  dsimp only
  rw [← hr]
  exact ⟨hnodes.1, es ++ fs, by rw [hnodes.2, State.noting_noting]⟩

/-- A variable has a local of its own, in the slot of its type, and its name is bound. -/
theorem lowerDeclarator_eq_ok {isConst : Bool} {d : Declarator} {ns : List Node}
    (h : lowerDeclarator fc isConst d st = .ok ns st') :
    let r := (compileInitial (fc.context st) d (declaredType? d)).value
    ns = initialNodes st.locals.length r.1 (r.2.slot fc.settings.width) ∧
      ∃ reports, st' = ((st.declared d.ident.name (r.2.slot fc.settings.width)).bound d.ident.name
        ⟨st.locals.length, r.2, isConst⟩).noting reports := by
  rw [lowerDeclarator_eq] at h
  split at h
  · obtain ⟨u, st₁, hreport, h⟩ := Lower.bind_eq_ok h
    cases hreport
    exact declareVariable_eq_ok st [_] h
  · exact declareVariable_eq_ok st [] ((State.noting_nil st).symm ▸ h)

theorem lowerDeclarators_nil {isConst : Bool} {ns : List Node}
    (h : lowerDeclarators fc isConst [] st = .ok ns st') : ns = [] ∧ st' = st := by
  cases h
  exact ⟨rfl, rfl⟩

/-- Declarators lower from the first to the last, and their nodes follow each other. -/
theorem lowerDeclarators_cons {isConst : Bool} {d : Declarator} {ds : List Declarator}
    {ns : List Node} (h : lowerDeclarators fc isConst (d :: ds) st = .ok ns st') :
    ∃ first st₁ rest, lowerDeclarator fc isConst d st = .ok first st₁ ∧
      lowerDeclarators fc isConst ds st₁ = .ok rest st' ∧ ns = first ++ rest := by
  obtain ⟨first, st₁, hfirst, h⟩ := Lower.bind_eq_ok h
  obtain ⟨rest, st₂, hrest, h⟩ := Lower.bind_eq_ok h
  cases h
  exact ⟨first, st₁, rest, hfirst, hrest, rfl⟩

/-- A declaration is the sequence of what its declarators emit. -/
theorem lower_varDecl {span : Span} {kind : Source.VarKind} {ds : List Declarator}
    (h : lower fc (.varDecl span kind ds) st = .ok n st') :
    ∃ sets, lowerDeclarators fc (kind = .constVar) ds st = .ok sets st' ∧ n = sequence sets := by
  obtain ⟨sets, st₁, hsets, h⟩ := Lower.bind_eq_ok h
  cases h
  exact ⟨sets, hsets, rfl⟩

/-- The search for the first guard that matches evaluates later guards first, and numbers this one
    below the limit of a table. -/
theorem selectNode_cons {condition : Nat} {slot : Slot} {position : Nat} {guard : Node}
    {guards : List Node} (h : selectNode condition slot position (guard :: guards) = .ok n) :
    ∃ rest, selectNode condition slot (position + 1) guards = .ok rest ∧ position < tableLimit ∧
      n = .select (.binary .eq slot (.localGet condition slot) guard) (.i32Const position)
        rest := by
  unfold selectNode at h
  -- The rest of the table is built before the size of this one is tested.
  cases hrest : selectNode condition slot (position + 1) guards with
  | error e =>
    rw [hrest] at h
    cases h
  | ok rest =>
    rw [hrest] at h
    dsimp only [bind, Except.bind] at h
    split at h
    next hlt =>
      cases h
      exact ⟨rest, rfl, hlt, rfl⟩
    next => cases h

/-! ## Statements with statements in them -/

theorem lowerOption_none {o : Option Node} (h : lowerOption fc none st = .ok o st') :
    o = none ∧ st' = st := by
  cases h
  exact ⟨rfl, rfl⟩

/-- A statement that is present lowers as it does alone. -/
theorem lowerOption_some {s : Stmt} {o : Option Node}
    (h : lowerOption fc (some s) st = .ok o st') :
    ∃ node, lower fc s st = .ok node st' ∧ o = some node := by
  obtain ⟨node, st₁, hnode, h⟩ := Lower.bind_eq_ok h
  cases h
  exact ⟨node, hnode, rfl⟩

theorem lowerAll_nil {ns : List Node} (h : lowerAll fc [] st = .ok ns st') :
    ns = [] ∧ st' = st := by
  cases h
  exact ⟨rfl, rfl⟩

/-- Statements lower from the first to the last, each in the state the one before it leaves. -/
theorem lowerAll_cons {s : Stmt} {ss : List Stmt} {ns : List Node}
    (h : lowerAll fc (s :: ss) st = .ok ns st') :
    ∃ node st₁ nodes, lower fc s st = .ok node st₁ ∧ lowerAll fc ss st₁ = .ok nodes st' ∧
      ns = node :: nodes := by
  obtain ⟨node, st₁, hnode, h⟩ := Lower.bind_eq_ok h
  obtain ⟨nodes, st₂, hnodes, h⟩ := Lower.bind_eq_ok h
  cases h
  exact ⟨node, st₁, nodes, hnode, hnodes, rfl⟩

/-- A block lowers its statements in a scope of their own. -/
theorem lower_block {span : Span} {ss : List Stmt} (h : lower fc (.block span ss) st = .ok n st') :
    ∃ nodes st₁, lowerAll fc ss st.opened = .ok nodes st₁ ∧ n = .block none nodes ∧
      st' = st₁.closed := by
  obtain ⟨st₁, hrun, rfl⟩ := Lower.withVariables_eq_ok h
  obtain ⟨nodes, st₂, hnodes, h⟩ := Lower.bind_eq_ok hrun
  cases h
  exact ⟨nodes, st₁, hnodes, rfl, rfl⟩

/-- The condition is compiled first, then the two branches in the order of the text. -/
theorem lower_if {span : Span} {c : Expr} {t : Stmt} {e : Option Stmt}
    (h : lower fc (.ifStmt span c t e) st = .ok n st') :
    let test := compileCondition (fc.context st) c
    ∃ tn st₁ en, lower fc t (st.noting test.reports) = .ok tn st₁ ∧
      lowerOption fc e st₁ = .ok en st' ∧
      n = match en with
        | none => .ifThen .none test.value tn
        | some en => .ifElse .none test.value tn en := by
  obtain ⟨c', st₁, htest, h⟩ := Lower.bind_eq_ok h
  cases htest
  obtain ⟨tn, st₂, ht, h⟩ := Lower.bind_eq_ok h
  obtain ⟨en, st₃, he, h⟩ := Lower.bind_eq_ok h
  -- The node has an else branch where the statement has one.
  cases en with
  | none => cases h; exact ⟨tn, st₂, none, ht, he, rfl⟩
  | some en => cases h; exact ⟨tn, st₂, some en, ht, he, rfl⟩

/-- The body of a `while` is lowered before its condition, which is compiled in the state the body
    leaves. -/
theorem lower_while {span : Span} {c : Expr} {body : Option Stmt}
    (h : lower fc (.whileStmt span c body) st = .ok n st') :
    ∃ bn st₁, lowerOption fc body (st.entered .loop) = .ok bn st₁ ∧
      let test := compileCondition (fc.context st₁) c
      n = whileNode (st.nextScope .loop) test.value (bn.getD .nop) ∧
      st' = (st₁.noting test.reports).left := by
  obtain ⟨st₁, hrun, -, rfl⟩ := Lower.withLabels_eq_ok h
  obtain ⟨bn, st₂, hbody, h⟩ := Lower.bind_eq_ok hrun
  cases h
  exact ⟨bn, st₂, hbody, rfl, rfl⟩

/-- A `do while` compiles its condition after the body, where the text has it. -/
theorem lower_doWhile {span : Span} {c : Expr} {body : Stmt}
    (h : lower fc (.doWhile span body c) st = .ok n st') :
    ∃ bn st₁, lower fc body (st.entered .loop) = .ok bn st₁ ∧
      let test := compileCondition (fc.context st₁) c
      n = doWhileNode (st.nextScope .loop) test.value bn ∧
      st' = (st₁.noting test.reports).left := by
  obtain ⟨st₁, hrun, -, rfl⟩ := Lower.withLabels_eq_ok h
  obtain ⟨bn, st₂, hbody, h⟩ := Lower.bind_eq_ok hrun
  cases h
  exact ⟨bn, st₂, hbody, rfl, rfl⟩

/-- A `for` lowers its initial statement and its body, and compiles test and update in the state the
    body leaves. -/
theorem lower_for {span : Span} {init body : Option Stmt} {c u : Option Expr}
    (h : lower fc (.forStmt span init c u body) st = .ok n st') :
    ∃ i st₁ bn st₂, lowerOption fc init st.opened = .ok i st₁ ∧
      lowerOption fc body (st₁.entered .loop) = .ok bn st₂ ∧
      (∀ s ∈ st₁.labels.scopes, s.id ≠ st₁.labels.next) ∧
      let test := c.mapM (compileCondition (fc.context st₂))
      let update := u.mapM (compileDiscarded (fc.context st₂))
      n = forNode (st₁.nextScope .loop) i test.value update.value (bn.getD .nop) ∧
      st' = ((st₂.noting (test.reports ++ update.reports)).left).closed := by
  obtain ⟨st₁, hrun, rfl⟩ := Lower.withVariables_eq_ok h
  obtain ⟨i, st₂, hinit, h⟩ := Lower.bind_eq_ok hrun
  obtain ⟨st₃, hloop, hfresh, rfl⟩ := Lower.withLabels_eq_ok h
  obtain ⟨bn, st₄, hbody, h⟩ := Lower.bind_eq_ok hloop
  cases h
  -- The reports of the test and of the update are appended one after the other.
  exact ⟨i, st₂, bn, st₄, hinit, hbody, hfresh, rfl, by rw [← State.noting_noting]; rfl⟩

/-- Compiles the discriminant of a switch for the type in which it is compared. -/
def compileDiscriminant (ctx : Context) (e : Expr) : Reported (Node × Ty) := do
  let c ← compile ctx e .void
  let compared := discriminantType ctx.width c.ty
  let value ← convertExplicit ctx.width c.node c.ty compared e.span
  pure (value, compared)

/-- Compiles a guard of a switch for the type of its discriminant. -/
def compileGuard (ctx : Context) (compared : Ty) (e : Expr) : Reported Node := do
  let c ← compile ctx e compared
  convertExplicit ctx.width c.node c.ty compared e.span

/-- Compiles an expression whose value is dropped if it is there. -/
def compileDropped (ctx : Context) (e : Expr) : Reported Node := do
  let c ← compile ctx e .void
  pure (if c.ty.isVoid then c.node else .drop c.node)

/-- A `switch` without clauses evaluates its discriminant and drops the value. -/
theorem lower_switch_nil {span : Span} {d : Expr}
    (h : lower fc (.switchStmt span d []) st = .ok n st') :
    let r := compileDropped (fc.context st) d
    n = r.value ∧ st' = st.noting r.reports := by
  cases h
  exact ⟨rfl, rfl⟩

/-- The state in which the clauses of a switch are lowered. -/
def State.switched (st : State) (fc : FunctionContext) (d : Expr) : State :=
  let r := compileDiscriminant (fc.context st) d
  (((st.entered .switch).noting r.reports).declared ("condition$" ++ toString st.labels.next)
    (r.value.2.slot fc.settings.width)).opened

/-- A `switch` keeps the discriminant in a local of its own, and dispatches on it into the nested
    clauses. -/
theorem lower_switch {span : Span} {d : Expr} {clauses : List Clause} (hne : clauses ≠ [])
    (h : lower fc (.switchStmt span d clauses) st = .ok n st') :
    let r := (compileDiscriminant (fc.context st) d).value
    ∃ cases st₁, lowerClauses fc (st.nextScope .switch) r.2 0 false clauses (st.switched fc d) =
        .ok cases st₁ ∧
      dispatchNode (st.nextScope .switch) st.locals.length (r.2.slot fc.settings.width) r.1 cases =
        .ok n ∧
      st' = st₁.closed.left := by
  cases clauses with
  | nil => exact absurd rfl hne
  | cons clause clauses =>
    obtain ⟨st₁, hrun, -, rfl⟩ := Lower.withLabels_eq_ok h
    obtain ⟨r, st₂, hcompile, h⟩ := Lower.bind_eq_ok hrun
    cases hcompile
    -- The local is declared after the discriminant is compiled and before the scope of the clauses
    -- opens.
    obtain ⟨condition, st₃, hdeclare, h⟩ := Lower.bind_eq_ok h
    cases hdeclare
    obtain ⟨cs, st₄, hclauses, h⟩ := Lower.bind_eq_ok h
    obtain ⟨st₅, hcases, rfl⟩ := Lower.withVariables_eq_ok hclauses
    obtain ⟨hdispatch, rfl⟩ := Lower.ofExcept_eq_ok h
    exact ⟨cs, st₅, hcases, hdispatch, rfl⟩

/-- A clause has a label and a guard of its own; a default clause has the fallback label, unless
    there is one already. -/
theorem lowerTest_eq_ok {scope : LabelScope} {compared : Ty} {ordinal : Nat} {hasDefault : Bool}
    {test : Option Expr} {span : Span} {r : Code.Label × Option Node}
    (h : lowerTest fc scope compared ordinal hasDefault test span st = .ok r st') :
    (∃ e, test = some e ∧ r = (scope.label (.clause ordinal),
        some (compileGuard (fc.context st) compared e).value) ∧
        st' = st.noting (compileGuard (fc.context st) compared e).reports) ∨
      (test = none ∧ hasDefault = false ∧ r = (scope.label .fallback, none) ∧ st' = st) ∨
      (test = none ∧ hasDefault ∧ r = (scope.label (.clause ordinal), none) ∧
        ∃ d, st' = st.noting [d]) := by
  unfold lowerTest at h
  cases test with
  | some e =>
    cases h
    exact .inl ⟨e, rfl, rfl, rfl⟩
  | none =>
    cases hasDefault with
    | true => cases h; exact .inr (.inr ⟨rfl, rfl, rfl, _, rfl⟩)
    | false => cases h; exact .inr (.inl ⟨rfl, rfl, rfl, rfl⟩)

theorem lowerClauses_nil {scope : LabelScope} {compared : Ty} {ordinal : Nat} {hasDefault : Bool}
    {cases : List Case}
    (h : lowerClauses fc scope compared ordinal hasDefault [] st = .ok cases st') :
    cases = [] ∧ st' = st := by
  cases h
  exact ⟨rfl, rfl⟩

/-- A clause lowers its test and then its body, and the clauses behind it know whether it is a
    default. -/
theorem lowerClauses_cons {scope : LabelScope} {compared : Ty} {ordinal : Nat} {hasDefault : Bool}
    {test : Option Expr} {body : List Stmt} {span : Span} {clauses : List Clause}
    {cases : List Case} (h : lowerClauses fc scope compared ordinal hasDefault
      (.mk test body span :: clauses) st = .ok cases st') :
    ∃ r st₁ nodes st₂ rest,
      lowerTest fc scope compared ordinal hasDefault test span st = .ok r st₁ ∧
      lowerAll fc body st₁ = .ok nodes st₂ ∧
      lowerClauses fc scope compared (ordinal + 1) (hasDefault || test.isNone) clauses st₂ =
        .ok rest st' ∧
      cases = ⟨r.1, r.2, nodes⟩ :: rest := by
  obtain ⟨r, st₁, htest, h⟩ := Lower.bind_eq_ok h
  obtain ⟨nodes, st₂, hbody, h⟩ := Lower.bind_eq_ok h
  obtain ⟨rest, st₃, hrest, h⟩ := Lower.bind_eq_ok h
  cases h
  exact ⟨r, st₁, nodes, st₂, rest, htest, hbody, hrest, rfl⟩

/-! ## Switches -/

/-- The nest of the blocks of a switch around its dispatch. -/
def nest (entry : List Node) (cases : List Case) : List Node :=
  cases.foldl (fun inner c => .block (some c.label) inner :: c.body) entry

@[simp] theorem nest_nil (entry : List Node) : nest entry [] = entry := rfl

@[simp] theorem nest_cons (entry : List Node) (c : Case) (cs : List Case) :
    nest entry (c :: cs) = nest (.block (some c.label) entry :: c.body) cs := rfl

/-- The labels and guards of the clauses that are dispatched to by their guards. -/
def guardedCases (cases : List Case) : List (Code.Label × Node) :=
  cases.filterMap fun c => c.guard.map fun g => (c.label, g)

/-- Where a switch goes on if no guard matches: the default clause, or the end of the switch. -/
def fallbackLabel (scope : LabelScope) (cases : List Case) : Code.Label :=
  if cases.any (·.label.kind = .fallback) then scope.label .fallback else scope.label .exit

/-- A switch that is dispatched sets its local and then branches over a table of its clauses. -/
theorem dispatchNode_eq_ok {scope : LabelScope} {condition : Nat} {slot : Slot} {value n : Node}
    {cases : List Case} (h : dispatchNode scope condition slot value cases = .ok n) :
    ∃ index, selectNode condition slot 0 ((guardedCases cases).map (·.2)) = .ok index ∧
      n = .block (some (scope.label .exit)) (nest [.localSet condition value,
        .brTable ((guardedCases cases).map (·.1)) (fallbackLabel scope cases) index] cases) := by
  unfold dispatchNode at h
  dsimp only at h
  -- The table of positions is what can fail, on more clauses than it holds.
  cases hindex : selectNode condition slot 0 ((guardedCases cases).map (·.2)) with
  | error e =>
    unfold guardedCases at hindex
    rw [hindex] at h
    cases h
  | ok index =>
    unfold guardedCases at hindex
    rw [hindex] at h
    cases h
    exact ⟨index, rfl, rfl⟩

end

end Weir.Lowering
