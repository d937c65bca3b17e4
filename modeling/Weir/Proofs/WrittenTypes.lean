import Weir.Source.Program

/-!
# Types in the text of a program

Types are written in casts, declarations, parameters, results and imports. `Program.mapTypes`
replaces each of them and leaves the rest of a program as it is, and `Program.types` lists them.

## Key results

- `Program.mapTypes_eq_self`: a program is the same after a replacement that leaves the types in it
  as they are
-/

namespace Weir.Source

/-! ## Replacing types -/

mutual

/-- The expression with each type in it replaced. -/
def Expr.mapTypes (f : Ty → Ty) : Expr → Expr
  | .literal span value => .literal span value
  | .name span x => .name span x
  | .binary span op left right => .binary span op (left.mapTypes f) (right.mapTypes f)
  | .unary span op operand => .unary span op (operand.mapTypes f)
  | .assign span op target value => .assign span op target (value.mapTypes f)
  | .call span callee args => .call span callee (Expr.mapTypesAll f args)
  | .cast span operand t => .cast span (operand.mapTypes f) (f t)
  | .paren span inner => .paren span (inner.mapTypes f)
termination_by structural e => e

/-- The expressions with each type in them replaced. -/
def Expr.mapTypesAll (f : Ty → Ty) : List Expr → List Expr
  | [] => []
  | e :: es => e.mapTypes f :: Expr.mapTypesAll f es
termination_by structural es => es

end

/-- The declarator with each type in it replaced. -/
def Declarator.mapTypes (f : Ty → Ty) (d : Declarator) : Declarator :=
  ⟨d.ident, d.declared.map f, d.init.map (Expr.mapTypes f)⟩

mutual

/-- The statement with each type in it replaced. -/
def Stmt.mapTypes (f : Ty → Ty) : Stmt → Stmt
  | .exprStmt span e => .exprStmt span (e.mapTypes f)
  | .varDecl span kind ds => .varDecl span kind (ds.map (Declarator.mapTypes f))
  | .returnStmt span value => .returnStmt span (value.map (Expr.mapTypes f))
  | .ifStmt span c t e => .ifStmt span (c.mapTypes f) (t.mapTypes f) (Stmt.mapTypesOption f e)
  | .forStmt span init c u body =>
    .forStmt span (Stmt.mapTypesOption f init) (c.map (Expr.mapTypes f))
      (u.map (Expr.mapTypes f)) (Stmt.mapTypesOption f body)
  | .whileStmt span c body => .whileStmt span (c.mapTypes f) (Stmt.mapTypesOption f body)
  | .doWhile span body c => .doWhile span (body.mapTypes f) (c.mapTypes f)
  | .block span ss => .block span (Stmt.mapTypesAll f ss)
  | .breakStmt span => .breakStmt span
  | .continueStmt span => .continueStmt span
  | .switchStmt span d cs => .switchStmt span (d.mapTypes f) (Clause.mapTypesAll f cs)
  | .empty span => .empty span
termination_by structural s => s

/-- The statement that may be missing, with each type in it replaced. -/
def Stmt.mapTypesOption (f : Ty → Ty) : Option Stmt → Option Stmt
  | none => none
  | some s => some (s.mapTypes f)
termination_by structural s => s

/-- The statements with each type in them replaced. -/
def Stmt.mapTypesAll (f : Ty → Ty) : List Stmt → List Stmt
  | [] => []
  | s :: ss => s.mapTypes f :: Stmt.mapTypesAll f ss
termination_by structural ss => ss

/-- The clauses with each type in them replaced. -/
def Clause.mapTypesAll (f : Ty → Ty) : List Clause → List Clause
  | [] => []
  | .mk test body span :: cs =>
    .mk (test.map (Expr.mapTypes f)) (Stmt.mapTypesAll f body) span :: Clause.mapTypesAll f cs
termination_by structural cs => cs

end

/-- The parameter with its type replaced. -/
def Param.mapTypes (f : Ty → Ty) (p : Param) : Param := { p with ty := f p.ty }

/-- The function with each type in it replaced. -/
def Function.mapTypes (f : Ty → Ty) (g : Function) : Function :=
  { g with
    params := g.params.map (Param.mapTypes f)
    result := f g.result
    body := Stmt.mapTypesAll f g.body }

/-- The import with each type in it replaced. -/
def Import.mapTypes (f : Ty → Ty) (i : Import) : Import :=
  { i with params := i.params.map f, result := f i.result }

/-- The program with each type in it replaced. -/
def Program.mapTypes (f : Ty → Ty) (p : Program) : Program :=
  ⟨p.imports.map (Import.mapTypes f), p.functions.map (Function.mapTypes f)⟩

/-! ## The types that are written -/

mutual

/-- The types in an expression. -/
def Expr.types : Expr → List Ty
  | .literal .. | .name .. => []
  | .binary _ _ left right => left.types ++ right.types
  | .unary _ _ e | .assign _ _ _ e | .paren _ e => e.types
  | .call _ _ args => Expr.typesAll args
  | .cast _ operand t => t :: operand.types
termination_by structural e => e

/-- The types in expressions. -/
def Expr.typesAll : List Expr → List Ty
  | [] => []
  | e :: es => e.types ++ Expr.typesAll es
termination_by structural es => es

end

/-- The types in an expression that may be missing. -/
def Expr.typesOption : Option Expr → List Ty
  | none => []
  | some e => e.types

/-- The types in a declarator. -/
def Declarator.types (d : Declarator) : List Ty := d.declared.toList ++ Expr.typesOption d.init

mutual

/-- The types in a statement. -/
def Stmt.types : Stmt → List Ty
  | .exprStmt _ e => e.types
  | .varDecl _ _ ds => ds.flatMap Declarator.types
  | .returnStmt _ value => Expr.typesOption value
  | .ifStmt _ c t e => c.types ++ t.types ++ Stmt.typesOption e
  | .forStmt _ init c u body =>
    Stmt.typesOption init ++ Expr.typesOption c ++ Expr.typesOption u ++ Stmt.typesOption body
  | .whileStmt _ c body => c.types ++ Stmt.typesOption body
  | .doWhile _ body c => body.types ++ c.types
  | .block _ ss => Stmt.typesAll ss
  | .switchStmt _ d cs => d.types ++ Clause.typesAll cs
  | .breakStmt _ | .continueStmt _ | .empty _ => []
termination_by structural s => s

/-- The types in a statement that may be missing. -/
def Stmt.typesOption : Option Stmt → List Ty
  | none => []
  | some s => s.types
termination_by structural s => s

/-- The types in statements. -/
def Stmt.typesAll : List Stmt → List Ty
  | [] => []
  | s :: ss => s.types ++ Stmt.typesAll ss
termination_by structural ss => ss

/-- The types in clauses. -/
def Clause.typesAll : List Clause → List Ty
  | [] => []
  | .mk test body _ :: cs => Expr.typesOption test ++ Stmt.typesAll body ++ Clause.typesAll cs
termination_by structural cs => cs

end

/-- The types in a function. -/
def Function.types (g : Function) : List Ty :=
  g.result :: g.params.map Param.ty ++ Stmt.typesAll g.body

/-- The types in an import. -/
def Import.types (i : Import) : List Ty := i.result :: i.params

/-- The types in a program. -/
def Program.types (p : Program) : List Ty :=
  p.imports.flatMap Import.types ++ p.functions.flatMap Function.types

/-! ## Replacements that change nothing -/

section

variable {f : Ty → Ty}

mutual

/-- An expression is the same if the types in it are. The induction is on the expression. -/
private theorem Expr.mapTypes_eq_self : (e : Expr) → (∀ t ∈ e.types, f t = t) → e.mapTypes f = e
  | .literal .., _ | .name .., _ => by simp only [Expr.mapTypes]
  | .binary _ _ l r, h => by
    simp only [Expr.types, List.forall_mem_append] at h
    simp only [Expr.mapTypes, l.mapTypes_eq_self h.1, r.mapTypes_eq_self h.2]
  | .unary _ _ e, h | .assign _ _ _ e, h | .paren _ e, h => by
    simp only [Expr.types] at h
    simp only [Expr.mapTypes, e.mapTypes_eq_self h]
  | .call _ _ args, h => by
    simp only [Expr.types] at h
    simp only [Expr.mapTypes, Expr.mapTypesAll_eq_self args h]
  -- Among expressions only a cast writes a type down.
  | .cast _ e t, h => by
    simp only [Expr.types, List.forall_mem_cons] at h
    simp only [Expr.mapTypes, e.mapTypes_eq_self h.2, h.1]
termination_by structural e => e

private theorem Expr.mapTypesAll_eq_self : (es : List Expr) → (∀ t ∈ Expr.typesAll es, f t = t) →
    Expr.mapTypesAll f es = es
  | [], _ => by simp only [Expr.mapTypesAll]
  | e :: es, h => by
    simp only [Expr.typesAll, List.forall_mem_append] at h
    simp only [Expr.mapTypesAll, e.mapTypes_eq_self h.1, Expr.mapTypesAll_eq_self es h.2]
termination_by structural es => es

end

/-- A list is the same if a map leaves its members as they are. -/
private theorem map_eq_self {α : Type} {g : α → α} {l : List α} (h : ∀ a ∈ l, g a = a) :
    l.map g = l :=
  List.map_congr_left (g := id) h |>.trans (List.map_id l)

private theorem Expr.mapTypesOption_eq_self {e : Option Expr}
    (h : ∀ t ∈ Expr.typesOption e, f t = t) :
    e.map (Expr.mapTypes f) = e := by
  cases e with
  | none => rfl
  | some e => exact congrArg some (e.mapTypes_eq_self h)

/-- A declarator has its own type and those of its initial value. -/
private theorem Declarator.mapTypes_eq_self {d : Declarator} (h : ∀ t ∈ d.types, f t = t) :
    d.mapTypes f = d := by
  simp only [Declarator.types, List.forall_mem_append] at h
  -- The declared type may be left out.
  have hdeclared : d.declared.map f = d.declared := by
    cases hd : d.declared with
    | none => rfl
    | some t => exact congrArg some (h.1 t (by simp [hd]))
  simp only [Declarator.mapTypes, hdeclared, Expr.mapTypesOption_eq_self h.2]

mutual

/-- A statement is the same if the types in it are. The induction is on the statement. -/
private theorem Stmt.mapTypes_eq_self : (s : Stmt) → (∀ t ∈ s.types, f t = t) → s.mapTypes f = s
  | .exprStmt _ e, h => by
    simp only [Stmt.types] at h
    simp only [Stmt.mapTypes, e.mapTypes_eq_self h]
  | .varDecl _ _ ds, h => by
    simp only [Stmt.types, List.forall_mem_flatMap] at h
    -- A declaration writes the types of its declarators.
    simp only [Stmt.mapTypes, map_eq_self fun d hd => Declarator.mapTypes_eq_self (h d hd)]
  | .returnStmt _ value, h => by
    simp only [Stmt.types] at h
    simp only [Stmt.mapTypes, Expr.mapTypesOption_eq_self h]
  | .ifStmt _ c t e, h => by
    simp only [Stmt.types, List.forall_mem_append] at h
    simp only [Stmt.mapTypes, c.mapTypes_eq_self h.1.1, t.mapTypes_eq_self h.1.2,
      Stmt.mapTypesOption_eq_self e h.2]
  | .forStmt _ init c u body, h => by
    simp only [Stmt.types, List.forall_mem_append] at h
    -- The types of a loop are those of its four parts.
    obtain ⟨⟨⟨hinit, hc⟩, hu⟩, hbody⟩ := h
    simp only [Stmt.mapTypes, Stmt.mapTypesOption_eq_self init hinit,
      Expr.mapTypesOption_eq_self hc, Expr.mapTypesOption_eq_self hu,
      Stmt.mapTypesOption_eq_self body hbody]
  | .whileStmt _ c body, h => by
    simp only [Stmt.types, List.forall_mem_append] at h
    simp only [Stmt.mapTypes, c.mapTypes_eq_self h.1, Stmt.mapTypesOption_eq_self body h.2]
  | .doWhile _ body c, h => by
    simp only [Stmt.types, List.forall_mem_append] at h
    simp only [Stmt.mapTypes, body.mapTypes_eq_self h.1, c.mapTypes_eq_self h.2]
  | .block _ ss, h => by
    simp only [Stmt.types] at h
    simp only [Stmt.mapTypes, Stmt.mapTypesAll_eq_self ss h]
  | .switchStmt _ d cs, h => by
    simp only [Stmt.types, List.forall_mem_append] at h
    simp only [Stmt.mapTypes, d.mapTypes_eq_self h.1, Clause.mapTypesAll_eq_self cs h.2]
  | .breakStmt _, _ | .continueStmt _, _ | .empty _, _ => by simp only [Stmt.mapTypes]
termination_by structural s => s

private theorem Stmt.mapTypesOption_eq_self : (s : Option Stmt) →
    (∀ t ∈ Stmt.typesOption s, f t = t) →
    Stmt.mapTypesOption f s = s
  | none, _ => by simp only [Stmt.mapTypesOption]
  | some s, h => by
    simp only [Stmt.typesOption] at h
    simp only [Stmt.mapTypesOption, s.mapTypes_eq_self h]
termination_by structural s => s

private theorem Stmt.mapTypesAll_eq_self : (ss : List Stmt) → (∀ t ∈ Stmt.typesAll ss, f t = t) →
    Stmt.mapTypesAll f ss = ss
  | [], _ => by simp only [Stmt.mapTypesAll]
  | s :: ss, h => by
    simp only [Stmt.typesAll, List.forall_mem_append] at h
    simp only [Stmt.mapTypesAll, s.mapTypes_eq_self h.1, Stmt.mapTypesAll_eq_self ss h.2]
termination_by structural ss => ss

private theorem Clause.mapTypesAll_eq_self : (cs : List Clause) →
    (∀ t ∈ Clause.typesAll cs, f t = t) →
    Clause.mapTypesAll f cs = cs
  | [], _ => by simp only [Clause.mapTypesAll]
  | .mk test body _ :: cs, h => by
    simp only [Clause.typesAll, List.forall_mem_append] at h
    -- A clause has the types of its test and of its body.
    obtain ⟨⟨htest, hbody⟩, hrest⟩ := h
    simp only [Clause.mapTypesAll, Expr.mapTypesOption_eq_self htest,
      Stmt.mapTypesAll_eq_self body hbody, Clause.mapTypesAll_eq_self cs hrest]
termination_by structural cs => cs

end

/-- Result, parameters and body are all that has types in a function. -/
private theorem Function.mapTypes_eq_self {g : Function} (h : ∀ t ∈ g.types, f t = t) :
    g.mapTypes f = g := by
  simp only [Function.types, List.cons_append, List.forall_mem_cons, List.forall_mem_append,
    List.forall_mem_map] at h
  obtain ⟨hresult, hparams, hbody⟩ := h
  -- Each parameter writes one type down.
  have hparams : g.params.map (Param.mapTypes f) = g.params :=
    map_eq_self fun p hp => by rw [Param.mapTypes, hparams p hp]
  rw [Function.mapTypes, hparams, hresult, Stmt.mapTypesAll_eq_self g.body hbody]

private theorem Import.mapTypes_eq_self {i : Import} (h : ∀ t ∈ i.types, f t = t) :
    i.mapTypes f = i := by
  simp only [Import.types, List.forall_mem_cons] at h
  rw [Import.mapTypes, map_eq_self h.2, h.1]

/-- A program is the same after a replacement that leaves the types in it as they are. -/
theorem Program.mapTypes_eq_self {p : Program} (h : ∀ t ∈ p.types, f t = t) :
    p.mapTypes f = p := by
  simp only [Program.types, List.forall_mem_append, List.forall_mem_flatMap] at h
  rw [Program.mapTypes, map_eq_self fun i hi => Import.mapTypes_eq_self (h.1 i hi),
    map_eq_self fun g hg => Function.mapTypes_eq_self (h.2 g hg)]

end

end Weir.Source
