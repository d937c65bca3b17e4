import Weir.Proofs.LowerStep

/-!
# Headers of loops

The body of a loop is lowered before its condition and its update, so they are compiled for the
variables that are in scope after the body. That is the scope in front of the body if the body
closes what it opens, as a block does. A declaration that stands as a body on its own, or in the
branch of an `if` or in a loop there, stays in scope; then a name of it that occurs in the header is
taken for the variable of the body.

## Key results

- `lower_frames`: a statement binds the names that it exposes, and no other ones
- `compile_congr`: expressions depend on what their names stand for
- `lower_loop_ahead`: loops whose headers have no name that the body exposes
- `lower_while_behind`: another loop, whose header is compiled for a variable of its body
-/

namespace Weir.Source

mutual

/-- The names of variables in an expression. -/
def Expr.names : Expr → List String
  | .literal .. => []
  | .name _ x => [x]
  | .unary _ _ e | .cast _ e _ | .paren _ e => e.names
  | .binary _ _ l r => l.names ++ r.names
  | .assign _ _ target value => target.name :: value.names
  | .call _ _ args => Expr.namesAll args
termination_by structural e => e

/-- The names of variables in expressions. -/
def Expr.namesAll : List Expr → List String
  | [] => []
  | e :: es => e.names ++ Expr.namesAll es
termination_by structural es => es

end

/-- The names of variables in an expression that may be missing. -/
def Expr.namesOption : Option Expr → List String
  | none => []
  | some e => e.names

mutual

/-- The names that a statement leaves bound in the scope that it stands in. -/
def Stmt.exposed : Stmt → List String
  | .varDecl _ _ ds => ds.map (·.ident.name)
  | .ifStmt _ _ t e => t.exposed ++ Stmt.exposedOption e
  | .whileStmt _ _ body => Stmt.exposedOption body
  | .doWhile _ body _ => body.exposed
  -- The others declare nothing, or open a scope for what they declare.
  | .exprStmt .. | .returnStmt .. | .forStmt .. | .block .. | .breakStmt _ | .continueStmt _
  | .switchStmt .. | .empty _ => []
termination_by structural s => s

/-- The names that a statement that may be missing leaves bound. -/
def Stmt.exposedOption : Option Stmt → List String
  | none => []
  | some s => s.exposed
termination_by structural s => s

end

end Weir.Source

namespace Weir.Lowering

open Weir.Code (Node)
open Weir.Source (AssignOp Declarator Expr Ident Span Stmt Ty)

/-! ## What statements bind -/

private theorem Variables.tail_bind (scopes : Variables) (name : String) (v : Variable) :
    (scopes.bind name v).tail = scopes.tail := by
  cases scopes <;> rfl

/-- A binding changes the meaning of its own name only. -/
private theorem Variables.find?_bind_of_ne {name x : String} (h : x ≠ name) (scopes : Variables)
    (v : Variable) : (scopes.bind name v).find? x = scopes.find? x := by
  cases scopes with
  | nil => rfl
  | cons scope rest =>
    have hne : (x == name) = false := by simpa using h
    simp [bind, find?, List.findSome?_cons, List.lookup_cons, hne]

/-- At most the given names are bound on the way from one stack of scopes to the other, and all of
    them in the innermost scope. -/
structure Variables.Frames (names : List String) (before after : Variables) : Prop where
  outer : after.tail = before.tail
  others : ∀ x ∉ names, after.find? x = before.find? x

namespace Variables.Frames

variable {scopes scopes₁ scopes₂ : Variables} {names names' : List String}

/-- Nothing is bound. -/
theorem refl : Frames names scopes scopes := ⟨rfl, fun _ _ => rfl⟩

/-- What two steps bind is what either of them does. -/
theorem trans (h : Frames names scopes scopes₁) (h' : Frames names' scopes₁ scopes₂) :
    Frames (names ++ names') scopes scopes₂ where
  outer := h'.outer.trans h.outer
  others x hx := by
    rw [List.mem_append, not_or] at hx
    exact (h'.others x hx.2).trans (h.others x hx.1)

/-- What is bound in a scope of its own is gone when the scope is closed. -/
private theorem closed (h : Frames names ([] :: scopes) scopes₁) :
    Frames [] scopes scopes₁.tail := by
  rw [h.outer]
  exact .refl

end Variables.Frames

section

variable {fc : FunctionContext} {st st' : State}

/-- A declarator binds its own name. -/
private theorem lowerDeclarator_frames {isConst : Bool} {d : Declarator} {ns : List Node}
    (h : lowerDeclarator fc isConst d st = .ok ns st') :
    Variables.Frames [d.ident.name] st.bindings st'.bindings := by
  obtain ⟨-, reports, rfl⟩ := lowerDeclarator_eq_ok h
  refine ⟨Variables.tail_bind _ _ _, fun x hx => ?_⟩
  exact Variables.find?_bind_of_ne (by simpa using hx) _ _

/-- A list of declarators binds the names of all of them. -/
private theorem lowerDeclarators_frames {isConst : Bool} {ds : List Declarator} {ns : List Node}
    (h : lowerDeclarators fc isConst ds st = .ok ns st') :
    Variables.Frames (ds.map (·.ident.name)) st.bindings st'.bindings := by
  induction ds generalizing st ns with
  | nil =>
    obtain ⟨-, rfl⟩ := lowerDeclarators_nil h
    exact .refl
  | cons d ds ih =>
    obtain ⟨first, st₁, rest, hfirst, hrest, -⟩ := lowerDeclarators_cons h
    exact (lowerDeclarator_frames hfirst).trans (ih hrest)

/-- The test of a clause binds nothing. -/
private theorem lowerTest_bindings {scope : LabelScope} {compared : Ty} {ordinal : Nat}
    {hasDefault : Bool} {test : Option Expr} {span : Span} {r : Code.Label × Option Node}
    (h : lowerTest fc scope compared ordinal hasDefault test span st = .ok r st') :
    st'.bindings = st.bindings := by
  rcases lowerTest_eq_ok h with ⟨e, -, -, rfl⟩ | ⟨-, -, -, rfl⟩ | ⟨-, -, -, d, rfl⟩
  · rfl
  · rfl
  · rfl

mutual

/-- A statement binds the names that it exposes in the innermost scope, and nothing else. -/
theorem lower_frames : (s : Stmt) → ∀ {st st' : State} {n : Node}, lower fc s st = .ok n st' →
    Variables.Frames s.exposed st.bindings st'.bindings
  | .exprStmt _ e, st, st', n, h => by
    obtain ⟨-, rfl⟩ := lower_exprStmt h
    exact .refl
  | .varDecl _ kind ds, st, st', n, h => by
    obtain ⟨sets, hsets, -⟩ := lower_varDecl h
    simp only [Stmt.exposed]
    exact lowerDeclarators_frames hsets
  | .returnStmt _ value, st, st', n, h => by
    rcases lower_return h with ⟨e, -, -, -, rfl⟩ | ⟨-, -, -, rfl⟩ | ⟨-, d, rfl⟩
    · exact .refl
    · exact .refl
    · exact .refl
  | .ifStmt _ c t e, st, st', n, h => by
    obtain ⟨tn, st₁, en, ht, he, -⟩ := lower_if h
    have hthen := lower_frames t ht
    simp only [Stmt.exposed]
    exact hthen.trans (lowerOption_frames e he)
  -- The names of the initial part and of the body end with the scope of the loop.
  | .forStmt _ init c u body, st, st', n, h => by
    obtain ⟨i, st₁, bn, st₂, hinit, hbody, -, -, rfl⟩ := lower_for h
    have hframes := lowerOption_frames body hbody
    simp only [Stmt.exposed]
    exact ((lowerOption_frames init hinit).trans hframes).closed
  | .whileStmt _ c body, st, st', n, h => by
    obtain ⟨bn, st₁, hbody, -, rfl⟩ := lower_while h
    have hframes := lowerOption_frames body hbody
    simp only [Stmt.exposed]
    exact hframes
  | .doWhile _ body c, st, st', n, h => by
    obtain ⟨bn, st₁, hbody, -, rfl⟩ := lower_doWhile h
    have hframes := lower_frames body hbody
    simp only [Stmt.exposed]
    exact hframes
  | .block _ ss, st, st', n, h => by
    obtain ⟨nodes, st₁, hnodes, -, rfl⟩ := lower_block h
    obtain ⟨names, hframes⟩ := lowerAll_frames ss hnodes
    simp only [Stmt.exposed]
    exact hframes.closed
  | .breakStmt _, st, st', n, h => by
    obtain ⟨-, -, -, rfl⟩ := lower_break h
    exact .refl
  | .continueStmt _, st, st', n, h => by
    obtain ⟨-, -, -, rfl⟩ := lower_continue h
    exact .refl
  | .switchStmt _ d [], st, st', n, h => by
    obtain ⟨-, rfl⟩ := lower_switch_nil h
    exact .refl
  | .switchStmt _ d (clause :: clauses), st, st', n, h => by
    obtain ⟨cases, st₁, hclauses, -, rfl⟩ := lower_switch (by simp) h
    obtain ⟨names, hframes⟩ := lowerClauses_frames (clause :: clauses) hclauses
    simp only [Stmt.exposed]
    exact hframes.closed
  | .empty _, st, st', n, h => by
    obtain ⟨-, rfl⟩ := lower_empty h
    exact .refl
termination_by structural s => s

private theorem lowerOption_frames : (s : Option Stmt) → ∀ {st st' : State} {o : Option Node},
    lowerOption fc s st = .ok o st' →
    Variables.Frames (Stmt.exposedOption s) st.bindings st'.bindings
  | none, st, st', o, h => by
    obtain ⟨-, rfl⟩ := lowerOption_none h
    exact .refl
  | some s, st, st', o, h => by
    obtain ⟨node, hnode, -⟩ := lowerOption_some h
    simp only [Stmt.exposedOption]
    exact lower_frames s hnode
termination_by structural s => s

/-- Statements bind some names, and all of them in the innermost scope. -/
private theorem lowerAll_frames : (ss : List Stmt) → ∀ {st st' : State} {ns : List Node},
    lowerAll fc ss st = .ok ns st' → ∃ names, Variables.Frames names st.bindings st'.bindings
  | [], st, st', ns, h => by
    obtain ⟨-, rfl⟩ := lowerAll_nil h
    exact ⟨[], .refl⟩
  | s :: ss, st, st', ns, h => by
    obtain ⟨node, st₁, nodes, hnode, hnodes, -⟩ := lowerAll_cons h
    obtain ⟨names, hrest⟩ := lowerAll_frames ss hnodes
    exact ⟨_, (lower_frames s hnode).trans hrest⟩
termination_by structural ss => ss

/-- The clauses of a switch bind some names, all of them in the scope of the switch. -/
private theorem lowerClauses_frames {scope : LabelScope} {compared : Ty} :
    (clauses : List Source.Clause) → ∀ {ordinal : Nat} {hasDefault : Bool} {st st' : State}
      {cases : List Case},
    lowerClauses fc scope compared ordinal hasDefault clauses st = .ok cases st' →
    ∃ names, Variables.Frames names st.bindings st'.bindings
  | [], ordinal, hasDefault, st, st', cases, h => by
    obtain ⟨-, rfl⟩ := lowerClauses_nil h
    exact ⟨[], .refl⟩
  | .mk test body span :: clauses, ordinal, hasDefault, st, st', cases, h => by
    obtain ⟨r, st₁, nodes, st₂, rest, htest, hbody, hrest, -⟩ := lowerClauses_cons h
    obtain ⟨names, hbody⟩ := lowerAll_frames body hbody
    obtain ⟨names', hrest⟩ := lowerClauses_frames clauses hrest
    rw [lowerTest_bindings htest] at hbody
    exact ⟨_, hbody.trans hrest⟩
termination_by structural clauses => clauses

end

end

/-! ## What expressions depend on -/

section

variable (ctx : Context) {bindings : Variables}

/-- The names stand for the same in both environments. -/
def Variables.AgreeOn (names : List String) (a b : Variables) : Prop :=
  ∀ x ∈ names, a.find? x = b.find? x

/-- Scopes that agree on two lists of names agree on each of them. -/
private theorem Variables.AgreeOn.of_append {names names' : List String} {a b : Variables}
    (h : a.AgreeOn (names ++ names') b) : a.AgreeOn names b ∧ a.AgreeOn names' b :=
  ⟨fun x hx => h x (List.mem_append_left _ hx), fun x hx => h x (List.mem_append_right _ hx)⟩

/-- An assignment looks up the name of its target only. -/
private theorem compileUpdate_congr {op : AssignOp} {target : Ident} {value : Operand}
    {span : Span} (h : bindings.find? target.name = ctx.bindings.find? target.name) :
    compileUpdate { ctx with bindings } op target value span =
      compileUpdate ctx op target value span := by
  unfold compileUpdate
  rw [h]

mutual

/-- What an expression compiles to depends on what its names stand for. -/
theorem compile_congr : (e : Expr) → bindings.AgreeOn e.names ctx.bindings →
    compile { ctx with bindings } e = compile ctx e
  | .literal _ value, _ => by
    funext t
    simp only [compile]
  | .paren _ inner, h => by
    funext t
    simp only [compile]
    rw [compile_congr inner h]
  | .name _ name, h => by
    funext t
    simp only [compile]
    rw [h name (by simp [Expr.names])]
  | .unary _ op operand, h => by
    funext t
    simp only [compile]
    rw [compile_congr operand h]
  | .binary _ op left right, h => by
    funext t
    simp only [Expr.names] at h
    simp only [compile]
    rw [compile_congr left h.of_append.1, compile_congr right h.of_append.2]
  -- The name of the target counts with those of the value.
  | .assign span op target value, h => by
    funext t
    simp only [Expr.names] at h
    have hvalue := compile_congr value fun x hx => h x (List.mem_cons_of_mem _ hx)
    simp only [compile]
    rw [hvalue, compileUpdate_congr ctx (h target.name List.mem_cons_self)]
  | .call _ callee args, h => by
    funext t
    simp only [Expr.names] at h
    simp only [compile]
    rw [compileArgs_congr args h]
  | .cast _ operand _, h => by
    funext t
    simp only [compile]
    rw [compile_congr operand h]
termination_by structural e => e

private theorem compileArgs_congr : (args : List Expr) →
    bindings.AgreeOn (Expr.namesAll args) ctx.bindings →
    compileArgs { ctx with bindings } args = compileArgs ctx args
  | [], _ => by
    funext ts
    simp only [compileArgs]
  | arg :: args, h => by
    funext ts
    cases ts with
    | nil => simp only [compileArgs]
    | cons t ts =>
      simp only [Expr.namesAll] at h
      simp only [compileArgs]
      rw [compile_congr arg h.of_append.1, compileArgs_congr args h.of_append.2]
termination_by structural args => args

end

/-- A condition depends on the names in it. -/
private theorem compileCondition_congr (e : Expr) (h : bindings.AgreeOn e.names ctx.bindings) :
    compileCondition { ctx with bindings } e = compileCondition ctx e := by
  unfold compileCondition Operand.ofExpr
  rw [compile_congr ctx e h]

/-- An expression for its effects depends on the names in it. -/
private theorem compileDiscarded_congr : (e : Expr) → bindings.AgreeOn e.names ctx.bindings →
    compileDiscarded { ctx with bindings } e = compileDiscarded ctx e
  | .paren _ inner, h => by
    simp only [compileDiscarded]
    exact compileDiscarded_congr inner h
  | .assign span op target value, h => by
    simp only [Expr.names] at h
    have hvalue := compile_congr ctx value fun x hx => h x (List.mem_cons_of_mem _ hx)
    simp only [compileDiscarded, Operand.ofExpr]
    rw [hvalue, compileUpdate_congr ctx (h target.name List.mem_cons_self)]
  | .literal .., h | .name .., h | .unary .., h | .binary .., h | .call .., h | .cast .., h => by
    simp only [compileDiscarded]
    rw [compile_congr ctx _ h]

end

/-! ## Loops -/

/-- Goes on with what was compiled, and keeps its reports. -/
def Lower.recording {α : Type} (r : Reported α) : Lower α :=
  fun st => .ok r.value (st.noting r.reports)

/-- Lowers a `while` loop whose condition is compiled for the variables in scope before the body. -/
def lowerWhileAhead (fc : FunctionContext) (condition : Expr) (body : Option Stmt) : Lower Node :=
  Lower.withLabels .loop fun scope => do
    let start ← get
    let body ← lowerOption fc body
    let condition ← .recording (compileCondition (fc.context start) condition)
    pure (whileNode scope condition (body.getD .nop))

/-- Lowers a `for` loop whose condition and update are compiled for the variables in scope after the
    initialiser. -/
def lowerForAhead (fc : FunctionContext) (init : Option Stmt) (condition update : Option Expr)
    (body : Option Stmt) : Lower Node :=
  Lower.withVariables do
    let init ← lowerOption fc init
    Lower.withLabels .loop fun scope => do
      let start ← get
      let body ← lowerOption fc body
      let condition ← .recording (condition.mapM (compileCondition (fc.context start)))
      let update ← .recording (update.mapM (compileDiscarded (fc.context start)))
      pure (forNode scope init condition update (body.getD .nop))

section

variable {fc : FunctionContext}

/-- What is compiled after the body is what would be compiled before it, if that is so whenever the
    body is lowered. -/
private theorem bind_body_congr {α : Type} {body : Option Stmt}
    {after ahead : Option Node → Lower α} {st : State}
    (h : ∀ bn st', lowerOption fc body st = .ok bn st' → after bn st' = ahead bn st') :
    (lowerOption fc body >>= after) st = (lowerOption fc body >>= ahead) st := by
  simp only [bind, EStateM.bind]
  cases hbody : lowerOption fc body st with
  | ok bn st' => exact h bn st' hbody
  | error e st' => rfl

/-- Compiling in a state is going on with what is compiled there. -/
private theorem bind_compiling_congr {α β : Type} {f : Context → Reported α} {r : Reported α}
    {k k' : α → Lower β} {st : State} (hr : f (fc.context st) = r)
    (hk : ∀ a, k a (st.noting r.reports) = k' a (st.noting r.reports)) :
    (Lower.compiling fc f >>= k) st = (Lower.recording r >>= k') st := by
  subst hr
  exact hk _

/-- An optional expression depends on the names in it, if it is there. -/
private theorem mapM_congr_names {st st' : State} {compiled : Context → Expr → Reported Node}
    (hcompiled : ∀ e : Expr, st'.bindings.AgreeOn e.names st.bindings →
      compiled (fc.context st') e = compiled (fc.context st) e)
    (o : Option Expr) (h : st'.bindings.AgreeOn (Expr.namesOption o) st.bindings) :
    o.mapM (compiled (fc.context st')) = o.mapM (compiled (fc.context st)) := by
  cases o with
  | none => rfl
  | some e => simp only [Option.mapM_some, hcompiled e h]

/-- The header of a loop is compiled as if it stood before the body, if the body exposes none of the
    names in it. -/
theorem lower_loop_ahead (fc : FunctionContext) (span : Span) (body : Option Stmt) :
    (∀ c : Expr, (∀ x ∈ c.names, x ∉ Stmt.exposedOption body) →
      lower fc (.whileStmt span c body) = lowerWhileAhead fc c body) ∧
    (∀ (init : Option Stmt) (c u : Option Expr),
      (∀ x ∈ Expr.namesOption c ++ Expr.namesOption u, x ∉ Stmt.exposedOption body) →
      lower fc (.forStmt span init c u body) = lowerForAhead fc init c u body) := by
  -- After the body the names stand for what they stood for before.
  have hkept {names : List String} (hnames : ∀ x ∈ names, x ∉ Stmt.exposedOption body)
      {st st' : State} {bn : Option Node} (h : lowerOption fc body st = .ok bn st') :
      st'.bindings.AgreeOn names st.bindings :=
    fun x hx => (lowerOption_frames body h).others x (hnames x hx)
  have hcondition {st st' : State} (e : Expr) (h : st'.bindings.AgreeOn e.names st.bindings) :
      compileCondition (fc.context st') e = compileCondition (fc.context st) e :=
    compileCondition_congr (fc.context st) e h
  have hdiscarded {st st' : State} (e : Expr) (h : st'.bindings.AgreeOn e.names st.bindings) :
      compileDiscarded (fc.context st') e = compileDiscarded (fc.context st) e :=
    compileDiscarded_congr (fc.context st) e h
  constructor
  · intro c hnames
    simp only [lower, lowerWhileAhead]
    congr 1
    funext scope st
    -- The header may be compiled with the variables from before the body.
    refine bind_body_congr fun bn st' hbody => ?_
    exact bind_compiling_congr (hcondition c (hkept hnames hbody)) fun _ => rfl
  · intro init c u hnames
    simp only [lower, lowerForAhead]
    congr 1
    congr 1
    funext i
    congr 1
    funext scope st
    refine bind_body_congr fun bn st' hbody => ?_
    obtain ⟨hc, hu⟩ := (hkept hnames hbody).of_append
    refine bind_compiling_congr (mapM_congr_names hcondition c hc) fun condition => ?_
    exact bind_compiling_congr (mapM_congr_names hdiscarded u hu) fun _ => rfl

end

/-- The condition `x < 10`. -/
def belowTen : Expr := .binary .empty .lt (.name .empty "x") (.literal .empty (.int 10))

/-- The update `x += 1`. -/
def countUp : Expr := .assign .empty .add ⟨.empty, "x"⟩ (.literal .empty (.int 1))

/-- A declaration of one variable of type `i64`, without a block around it. -/
def declaration (name : String) : Option Stmt :=
  some (.varDecl .empty .letVar [⟨⟨.empty, name⟩, some .i64, none⟩])

/-- A body may declare what the header does not name. -/
theorem lower_declaration_ahead :
    let fc : FunctionContext := ⟨{}, {}, .void⟩
    (∀ x ∈ belowTen.names, x ∉ Stmt.exposedOption (declaration "y")) ∧
      (∀ x ∈ Expr.namesOption (some belowTen) ++ Expr.namesOption (some countUp),
        x ∉ Stmt.exposedOption (declaration "y")) ∧
      lower fc (.whileStmt .empty belowTen (declaration "y")) =
        lowerWhileAhead fc belowTen (declaration "y") ∧
      lower fc (.forStmt .empty (declaration "x") (some belowTen) (some countUp)
          (declaration "y")) =
        lowerForAhead fc (declaration "x") (some belowTen) (some countUp) (declaration "y") := by
  intro fc
  have hwhile : ∀ x ∈ belowTen.names, x ∉ Stmt.exposedOption (declaration "y") := by decide
  have hfor : ∀ x ∈ Expr.namesOption (some belowTen) ++ Expr.namesOption (some countUp),
      x ∉ Stmt.exposedOption (declaration "y") := by decide
  obtain ⟨hwhile', hfor'⟩ := lower_loop_ahead fc .empty (declaration "y")
  exact ⟨hwhile, hfor, hwhile' _ hwhile, hfor' _ _ _ hfor⟩

/-- The condition of a loop can be compiled for a variable of its body: here for the `i64` that the
    body declares, and not for the `i32` of the same name in front of the loop. -/
theorem lower_while_behind :
    ¬ ∀ (fc : FunctionContext) (span : Span) (c : Expr) (body : Option Stmt) (st : State),
      lower fc (.whileStmt span c body) st = lowerWhileAhead fc c body st := by
  intro h
  have hsame := h ⟨{}, {}, .void⟩ .empty belowTen (declaration "x")
    { bindings := [[], [("x", ⟨0, .i32, false⟩)]], locals := [⟨"x", .i32⟩] }
  cases hsame

end Weir.Lowering
