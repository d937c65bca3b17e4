import Weir.Code.Module
import Weir.Lowering.Expression
import Weir.Lowering.Labels

/-!
# Lowering statements

`lower` turns a statement into one node of code. It works on the labels and variables in scope and
on the locals of the function, and keeps what it has reported also when it fails: a jump without a
target is an `Error`. Label scopes and variable scopes are closed again on every way out.
-/

namespace Weir.Lowering

open Weir.Code (Label Local Node Slot Value)
open Weir.Source (Clause Declarator Expr PointerWidth Span Stmt Ty VarKind)

/-- How programs are lowered: the width of a pointer, and whether a statement that could not be
lowered traps. -/
structure Settings where
  width : PointerWidth := .w32
  trapOnError : Bool := true
  deriving DecidableEq

/-- What is fixed while a function is lowered. -/
structure FunctionContext where
  settings : Settings
  functions : FunctionTable
  result : Ty

/-- What changes while a function is lowered: its labels and variables in scope, its locals, and
the problems reported so far. -/
structure State where
  labels : LabelStack := {}
  bindings : Variables := [[]]
  locals : List Local := []
  reports : List Diagnostic := []

/-- A step of lowering. The state outlives an error. -/
abbrev Lower (α : Type) : Type := EStateM Error State α

namespace Lower

variable {α : Type}

/-- Reports a problem. -/
def report (problem : Problem) (span : Span) : Lower Unit :=
  modify fun s => { s with reports := s.reports ++ [⟨problem, span⟩] }

/-- Compiles with the variables in scope, keeping the reports. -/
def compiling (fc : FunctionContext) (f : Context → Reported α) : Lower α := fun s =>
  let r := f ⟨fc.settings.width, fc.functions, s.bindings⟩
  .ok r.value { s with reports := s.reports ++ r.reports }

/-- Allocates a local. -/
def declare (name : String) (slot : Slot) : Lower Nat := fun s =>
  .ok s.locals.length { s with locals := s.locals ++ [⟨name, slot⟩] }

/-- Binds a variable in the innermost scope; a name that is taken there is reported. -/
def bindVariable (name : String) (v : Variable) (span : Span) : Lower Unit := do
  let s ← get
  set { s with bindings := s.bindings.bind name v }
  if s.bindings.isBoundHere name then report (.duplicateVariable name) span

/-- Runs with a new variable scope, and closes it on every way out. -/
def withVariables (run : Lower α) : Lower α := fun s =>
  let close (s : State) : State := { s with bindings := s.bindings.tail }
  match run { s with bindings := [] :: s.bindings } with
  | .ok a s => .ok a (close s)
  | .error e s => .error e (close s)

/-- Runs with a new label scope, and closes it on every way out. -/
def withLabels (kind : ScopeKind) (run : LabelScope → Lower α) : Lower α := fun s =>
  match s.labels.enter kind with
  | (.error e, labels) => .error e { s with labels }
  | (.ok scope, labels) =>
    match run scope { s with labels } with
    | .ok a s =>
      match s.labels.leave scope with
      | (.ok (), labels) => .ok a { s with labels }
      | (.error e, labels) => .error e { s with labels }
    | .error e s => .error e { s with labels := (s.labels.leave scope).2 }

/-- Goes on with a result, or fails. -/
def ofExcept : Except Error α → Lower α
  | .ok a => pure a
  | .error e => throw e

end Lower

open Lower (report compiling declare bindVariable withVariables withLabels)

/-! ## Statements without statements in them -/

/-- A node in place of a statement that could not be lowered. -/
def poison (fc : FunctionContext) : Node :=
  if fc.settings.trapOnError then .unreachable else .nop

/-- Lowers `return`, whose value has to fit the result type of the function. -/
def lowerReturn (fc : FunctionContext) (value : Option Expr) (span : Span) : Lower Node := do
  match value with
  | some e =>
    if fc.result.isVoid then
      report .returnValueInVoidFunction e.span
      pure (poison fc)
    else
      let node ← compiling fc fun ctx => do
        let c ← compile ctx e fc.result
        convertImplicit ctx.width c.node c.ty fc.result e.span
      pure (.retValue node)
  | none =>
    if fc.result.isVoid then pure .ret
    else
      report .missingReturnValue span
      pure (poison fc)

/-- The initial value of a variable, if it has one, and the type of the variable. -/
def compileInitial (ctx : Context) (d : Declarator) (declared : Option Ty) :
    Reported (Option Node × Ty) := do
  match d.init, declared with
  | some e, some t =>
    let c ← compile ctx e t
    let node ← convertImplicit ctx.width c.node c.ty t e.span
    pure (some node, t)
  | some e, none =>
    let c ← compile ctx e .void
    if c.ty.isVoid then
      let node ← convertExplicit ctx.width c.node c.ty .i32 e.span
      pure (some node, .i32)
    else pure (some c.node, c.ty)
  | none, some t => pure (none, t)
  | none, none =>
    Reported.report (.missingType d.ident.name) d.ident.span
    pure (none, .i32)

/-- Lowers one variable of a declaration to the nodes that set it. The name is bound after its
initial value is compiled; without one the local is set to zero each time. -/
def lowerDeclarator (fc : FunctionContext) (isConst : Bool) (d : Declarator) :
    Lower (List Node) := do
  let span := d.ident.span
  if d.declared = some .void then report .voidValue span
  -- A variable of type void is declared as if it were given no type.
  let declared := if d.declared = some .void then none else d.declared
  let (initial, t) ← compiling fc fun ctx => compileInitial ctx d declared
  let slot := t.slot fc.settings.width
  let index ← declare d.ident.name slot
  bindVariable d.ident.name ⟨index, t, isConst⟩ span
  match initial, Value.zero? slot with
  | some node, _ => pure [.localSet index node]
  | none, some zero => pure [.localSet index (.const zero)]
  | none, none => pure []

/-- Lowers the variables of a declaration. -/
def lowerDeclarators (fc : FunctionContext) (isConst : Bool) :
    List Declarator → Lower (List Node)
  | [] => pure []
  | d :: ds => do
    let first ← lowerDeclarator fc isConst d
    let rest ← lowerDeclarators fc isConst ds
    pure (first ++ rest)

/-- Nodes as one node. -/
def sequence : List Node → Node
  | [] => .nop
  | [n] => n
  | ns => .block none ns

/-! ## Shapes of loops and switches -/

/-- A `while` loop: the condition stands at its head, where `continue` goes too. -/
def whileNode (scope : LabelScope) (condition body : Node) : Node :=
  let again : Node := .br (scope.label .next)
  -- A body without code is left out.
  let round := match body with
    | .nop => again
    | body => .block none [body, again]
  .block (some (scope.label .exit)) [.loop (scope.label .next) (.ifThen .none condition round)]

/-- A `do` loop: `continue` leaves the block around the body, so that the condition still runs. -/
def doWhileNode (scope : LabelScope) (condition body : Node) : Node :=
  .block (some (scope.label .exit))
    [.loop (scope.label .head) (.block none
      [.block (some (scope.label .next)) [body], .brIf (scope.label .head) condition])]

/-- A `for` loop: `continue` leaves the block around the body, so that the update still runs. -/
def forNode (scope : LabelScope) (init condition update : Option Node) (body : Node) : Node :=
  let round : Node := .block none
    (.block (some (scope.label .next)) [body] :: (update.toList ++ [.br (scope.label .head)]))
  let guarded : Node := match condition with
    | some condition => .ifThen .none condition round
    | none => round
  .block (some (scope.label .exit)) (init.toList ++ [.loop (scope.label .head) guarded])

/-- A lowered clause of a switch; a default clause has no guard. -/
structure Case where
  label : Label
  guard : Option Node
  body : List Node

/-- Clauses that are numbered in a branch table stay below this. -/
def tableLimit : Nat := 1 <<< 31

/-- The number of the first guard that equals the condition, counting from `position`, or minus
one. All guards are evaluated, the last one first. -/
def selectNode (condition : Nat) (slot : Slot) : Nat → List Node → Except Error Node
  | _, [] => .ok (.i32Const (-1))
  | position, guard :: guards => do
    let rest ← selectNode condition slot (position + 1) guards
    if position < tableLimit then
      .ok (.select (.binary .eq slot (.localGet condition slot) guard) (.i32Const position) rest)
    else .error (.tooManyCases position)

/-- The nest of blocks of a switch: leaving the block of a clause leads to its body, and from there
into the body of the next clause. -/
def switchNode (scope : LabelScope) (entry : List Node) (cases : List Case) : Node :=
  .block (some (scope.label .exit))
    -- The block of the first clause is the innermost one, right around the dispatch.
    (cases.foldl (fun inner c => .block (some c.label) inner :: c.body) entry)

/-- The whole switch over its lowered clauses. -/
def dispatchNode (scope : LabelScope) (condition : Nat) (slot : Slot) (value : Node)
    (cases : List Case) : Except Error Node := do
  -- The table is numbered by guards, so a default clause takes no place in it.
  let guarded := cases.filterMap fun c => c.guard.map fun g => (c.label, g)
  let index ← selectNode condition slot 0 (guarded.map (·.2))
  let fallback :=
    if cases.any (·.label.kind = .fallback) then scope.label .fallback else scope.label .exit
  pure (switchNode scope
    [.localSet condition value, .brTable (guarded.map (·.1)) fallback index] cases)

/-- The label and the guard of a clause with the given ordinal. Further default clauses are
reported and get a label that nothing is dispatched to. -/
def lowerTest (fc : FunctionContext) (scope : LabelScope) (compared : Ty) (ordinal : Nat)
    (hasDefault : Bool) (test : Option Expr) (span : Span) : Lower (Label × Option Node) := do
  match test with
  | some e =>
    let guard ← compiling fc fun ctx => do
      let c ← compile ctx e compared
      convertExplicit ctx.width c.node c.ty compared e.span
    pure (scope.label (.clause ordinal), some guard)
  | none =>
    if hasDefault then
      report .duplicateDefault span
      pure (scope.label (.clause ordinal), none)
    else pure (scope.label .fallback, none)

/-! ## Statements -/

mutual

/-- Lowers a statement. -/
def lower (fc : FunctionContext) : Stmt → Lower Node
  | .exprStmt _ e => compiling fc fun ctx => compileDiscarded ctx e
  | .varDecl _ kind declarators => do
    let sets ← lowerDeclarators fc (kind = .constVar) declarators
    pure (sequence sets)
  | .returnStmt span value => lowerReturn fc value span
  | .ifStmt _ condition thenStmt elseStmt => do
    let c ← compiling fc fun ctx => compileCondition ctx condition
    let t ← lower fc thenStmt
    match ← lowerOption fc elseStmt with
    | none => pure (.ifThen .none c t)
    | some e => pure (.ifElse .none c t e)
  | .forStmt _ init condition update body =>
    withVariables do
      let init ← lowerOption fc init
      withLabels .loop fun scope => do
        let body ← lowerOption fc body
        -- The condition and the update come after the body, and so do their reports.
        let condition ← compiling fc fun ctx => condition.mapM (compileCondition ctx)
        let update ← compiling fc fun ctx => update.mapM (compileDiscarded ctx)
        pure (forNode scope init condition update (body.getD .nop))
  | .whileStmt _ condition body =>
    withLabels .loop fun scope => do
      let body ← lowerOption fc body
      let condition ← compiling fc fun ctx => compileCondition ctx condition
      pure (whileNode scope condition (body.getD .nop))
  | .doWhile _ body condition =>
    withLabels .loop fun scope => do
      let body ← lower fc body
      let condition ← compiling fc fun ctx => compileCondition ctx condition
      pure (doWhileNode scope condition body)
  | .block _ stmts => withVariables do
    let nodes ← lowerAll fc stmts
    pure (.block none nodes)
  | .breakStmt _ => do
    let label ← Lower.ofExcept (← get).labels.breakTarget
    pure (.br label)
  | .continueStmt _ => do
    let label ← Lower.ofExcept (← get).labels.continueTarget
    pure (.br label)
  | .switchStmt _ discriminant [] => compiling fc fun ctx => do
    let c ← compile ctx discriminant .void
    pure (if c.ty.isVoid then c.node else .drop c.node)
  | .switchStmt _ discriminant clauses =>
    withLabels .switch fun scope => do
      let w := fc.settings.width
      let (value, compared) ← compiling fc fun ctx => do
        let c ← compile ctx discriminant .void
        let compared := discriminantType w c.ty
        let value ← convertExplicit w c.node c.ty compared discriminant.span
        pure (value, compared)
      let slot := compared.slot w
      -- Every guard is compared with the discriminant, which is evaluated once.
      let condition ← declare ("condition$" ++ toString scope.id) slot
      let cases ← withVariables (lowerClauses fc scope compared 0 false clauses)
      Lower.ofExcept (dispatchNode scope condition slot value cases)
  | .empty _ => pure .nop
termination_by structural s => s

/-- Lowers a statement that may be missing. -/
def lowerOption (fc : FunctionContext) : Option Stmt → Lower (Option Node)
  | none => pure none
  | some s => do
    let node ← lower fc s
    pure (some node)
termination_by structural s => s

/-- Lowers statements one after the other. -/
def lowerAll (fc : FunctionContext) : List Stmt → Lower (List Node)
  | [] => pure []
  | s :: ss => do
    let node ← lower fc s
    let nodes ← lowerAll fc ss
    pure (node :: nodes)
termination_by structural ss => ss

/-- Lowers the clauses of a switch from the one with the given ordinal on. -/
def lowerClauses (fc : FunctionContext) (scope : LabelScope) (compared : Ty) (ordinal : Nat)
    (hasDefault : Bool) : List Clause → Lower (List Case)
  | [] => pure []
  | .mk test body span :: clauses => do
    let (label, guard) ← lowerTest fc scope compared ordinal hasDefault test span
    let nodes ← lowerAll fc body
    let rest ← lowerClauses fc scope compared (ordinal + 1) (hasDefault || test.isNone) clauses
    pure (⟨label, guard, nodes⟩ :: rest)
termination_by structural cs => cs

end

end Weir.Lowering
