import Weir.Source.Program

/-!
# Expressions in the text of a program

Expressions stand in statements: as values and initial values, as conditions and updates, as
discriminants and guards. `Program.mapExprs` replaces each of them and leaves the statements around
them as they are, and `Program.exprs` lists them. An expression counts as a whole here; what is done
to its parts is up to the replacement.

## Key results

- `Program.exprs_mapExprs`: the expressions of a program after a replacement
-/

namespace Weir.Source

/-! ## Replacing expressions -/

/-- The declarator with its initial value replaced. -/
def Declarator.mapExprs (f : Expr → Expr) (d : Declarator) : Declarator :=
  { d with init := d.init.map f }

mutual

/-- The statement with each expression in it replaced. -/
def Stmt.mapExprs (f : Expr → Expr) : Stmt → Stmt
  | .exprStmt span e => .exprStmt span (f e)
  | .varDecl span kind ds => .varDecl span kind (ds.map (Declarator.mapExprs f))
  | .returnStmt span value => .returnStmt span (value.map f)
  | .ifStmt span c t e => .ifStmt span (f c) (t.mapExprs f) (Stmt.mapExprsOption f e)
  | .forStmt span init c u body =>
    .forStmt span (Stmt.mapExprsOption f init) (c.map f) (u.map f) (Stmt.mapExprsOption f body)
  | .whileStmt span c body => .whileStmt span (f c) (Stmt.mapExprsOption f body)
  | .doWhile span body c => .doWhile span (body.mapExprs f) (f c)
  | .block span ss => .block span (Stmt.mapExprsAll f ss)
  | .breakStmt span => .breakStmt span
  | .continueStmt span => .continueStmt span
  | .switchStmt span d cs => .switchStmt span (f d) (Clause.mapExprsAll f cs)
  | .empty span => .empty span
termination_by structural s => s

/-- The statement that may be missing, with each expression in it replaced. -/
def Stmt.mapExprsOption (f : Expr → Expr) : Option Stmt → Option Stmt
  | none => none
  | some s => some (s.mapExprs f)
termination_by structural s => s

/-- The statements with each expression in them replaced. -/
def Stmt.mapExprsAll (f : Expr → Expr) : List Stmt → List Stmt
  | [] => []
  | s :: ss => s.mapExprs f :: Stmt.mapExprsAll f ss
termination_by structural ss => ss

/-- The clauses with each expression in them replaced. -/
def Clause.mapExprsAll (f : Expr → Expr) : List Clause → List Clause
  | [] => []
  | .mk test body span :: cs =>
    .mk (test.map f) (Stmt.mapExprsAll f body) span :: Clause.mapExprsAll f cs
termination_by structural cs => cs

end

/-- The function with each expression in it replaced. -/
def Function.mapExprs (f : Expr → Expr) (g : Function) : Function :=
  { g with body := Stmt.mapExprsAll f g.body }

/-- The program with each expression in it replaced. -/
def Program.mapExprs (f : Expr → Expr) (p : Program) : Program :=
  { p with functions := p.functions.map (Function.mapExprs f) }

/-! ## The expressions that are written -/

/-- The expressions in a declarator. -/
def Declarator.exprs (d : Declarator) : List Expr := d.init.toList

mutual

/-- The expressions in a statement, in the order of the text. -/
def Stmt.exprs : Stmt → List Expr
  | .exprStmt _ e => [e]
  | .varDecl _ _ ds => ds.flatMap Declarator.exprs
  | .returnStmt _ value => value.toList
  | .ifStmt _ c t e => c :: (t.exprs ++ Stmt.exprsOption e)
  | .forStmt _ init c u body =>
    Stmt.exprsOption init ++ c.toList ++ u.toList ++ Stmt.exprsOption body
  | .whileStmt _ c body => c :: Stmt.exprsOption body
  | .doWhile _ body c => body.exprs ++ [c]
  | .block _ ss => Stmt.exprsAll ss
  | .switchStmt _ d cs => d :: Clause.exprsAll cs
  | .breakStmt _ | .continueStmt _ | .empty _ => []
termination_by structural s => s

/-- The expressions in a statement that may be missing. -/
def Stmt.exprsOption : Option Stmt → List Expr
  | none => []
  | some s => s.exprs
termination_by structural s => s

/-- The expressions in statements. -/
def Stmt.exprsAll : List Stmt → List Expr
  | [] => []
  | s :: ss => s.exprs ++ Stmt.exprsAll ss
termination_by structural ss => ss

/-- The expressions in clauses. -/
def Clause.exprsAll : List Clause → List Expr
  | [] => []
  | .mk test body _ :: cs => test.toList ++ Stmt.exprsAll body ++ Clause.exprsAll cs
termination_by structural cs => cs

end

/-- The expressions in a function. -/
def Function.exprs (g : Function) : List Expr := Stmt.exprsAll g.body

/-- The expressions in a program. -/
def Program.exprs (p : Program) : List Expr := p.functions.flatMap Function.exprs

/-! ## The expressions after a replacement -/

section

variable {f : Expr → Expr}

private theorem toList_map (e : Option Expr) : (e.map f).toList = e.toList.map f := by
  cases e <;> rfl

/-- A list of parts has the replaced expressions if each part has. -/
private theorem flatMap_map_exprs {α : Type} {exprs : α → List Expr} {replace : α → α}
    (h : ∀ a, exprs (replace a) = (exprs a).map f) (as : List α) :
    (as.map replace).flatMap exprs = (as.flatMap exprs).map f := by
  rw [List.flatMap_map, List.map_flatMap]
  exact congrArg (as.flatMap ·) (funext h)

/-- The expression of a declarator is its initial value. -/
private theorem Declarator.exprs_mapExprs (d : Declarator) : (d.mapExprs f).exprs = d.exprs.map f :=
  toList_map d.init

mutual

/-- The expressions in a statement after a replacement. The induction is on the statement. -/
private theorem Stmt.exprs_mapExprs : (s : Stmt) → (s.mapExprs f).exprs = s.exprs.map f
  | .exprStmt .. | .breakStmt _ | .continueStmt _ | .empty _ => by
    -- The expressions stand in the order of the text on both sides, so only the parts have to
    -- agree.
    simp only [Stmt.mapExprs, Stmt.exprs, List.map_cons, List.map_nil]
  | .varDecl _ _ ds => by
    simp only [Stmt.mapExprs, Stmt.exprs]
    -- Declarators have their expressions one after the other.
    exact flatMap_map_exprs Declarator.exprs_mapExprs ds
  | .returnStmt _ value => by
    simp only [Stmt.mapExprs, Stmt.exprs]
    exact toList_map value
  | .ifStmt _ c t e => by
    simp only [Stmt.mapExprs, Stmt.exprs, t.exprs_mapExprs, Stmt.exprsOption_mapExprs e,
      List.map_cons, List.map_append]
  | .forStmt _ init c u body => by
    simp only [Stmt.mapExprs, Stmt.exprs, toList_map, Stmt.exprsOption_mapExprs init,
      Stmt.exprsOption_mapExprs body, List.map_append]
  | .whileStmt _ c body => by
    simp only [Stmt.mapExprs, Stmt.exprs, Stmt.exprsOption_mapExprs body, List.map_cons]
  | .doWhile _ body c => by
    simp only [Stmt.mapExprs, Stmt.exprs, body.exprs_mapExprs, List.map_append, List.map_cons,
      List.map_nil]
  | .block _ ss => by
    simp only [Stmt.mapExprs, Stmt.exprs, Stmt.exprsAll_mapExprs ss]
  | .switchStmt _ d cs => by
    simp only [Stmt.mapExprs, Stmt.exprs, Clause.exprsAll_mapExprs cs, List.map_cons]
termination_by structural s => s

private theorem Stmt.exprsOption_mapExprs : (s : Option Stmt) →
    Stmt.exprsOption (Stmt.mapExprsOption f s) = (Stmt.exprsOption s).map f
  | none => by simp only [Stmt.mapExprsOption, Stmt.exprsOption, List.map_nil]
  | some s => by simp only [Stmt.mapExprsOption, Stmt.exprsOption, s.exprs_mapExprs]
termination_by structural s => s

private theorem Stmt.exprsAll_mapExprs : (ss : List Stmt) →
    Stmt.exprsAll (Stmt.mapExprsAll f ss) = (Stmt.exprsAll ss).map f
  | [] => by simp only [Stmt.mapExprsAll, Stmt.exprsAll, List.map_nil]
  | s :: ss => by
    simp only [Stmt.mapExprsAll, Stmt.exprsAll, s.exprs_mapExprs, Stmt.exprsAll_mapExprs ss,
      List.map_append]
termination_by structural ss => ss

/-- The tests and the bodies of clauses are changed alike. -/
private theorem Clause.exprsAll_mapExprs : (cs : List Clause) →
    Clause.exprsAll (Clause.mapExprsAll f cs) = (Clause.exprsAll cs).map f
  | [] => by simp only [Clause.mapExprsAll, Clause.exprsAll, List.map_nil]
  | .mk test body _ :: cs => by
    -- The test of a clause comes before its body.
    simp only [Clause.mapExprsAll, Clause.exprsAll, toList_map, Stmt.exprsAll_mapExprs body,
      Clause.exprsAll_mapExprs cs, List.map_append]
termination_by structural cs => cs

end

/-- The expressions of a program after a replacement are the replaced ones, in the same order. -/
theorem Program.exprs_mapExprs (p : Program) : (p.mapExprs f).exprs = p.exprs.map f :=
  flatMap_map_exprs (fun g => Stmt.exprsAll_mapExprs g.body) p.functions

end

end Weir.Source
