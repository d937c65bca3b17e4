import Weir.Lowering.Statement

/-!
# Lowering programs

`lowerProgram` turns a program into a module with the problems that it reported. Imports come
first; every function has its number before any body is lowered, so that calls may refer forward.
-/

namespace Weir.Lowering

open Weir.Code (Local Module Node)
open Weir.Source (Program Ty)

/-- A lowered program. The module is only sound when nothing was reported. -/
structure Lowered where
  module : Module
  reports : List Diagnostic

/-- The callables of a program in order: their names, their signatures and, for what is reported
about a name that is taken, their spans. -/
def callables (p : Program) : List (String × Signature × Source.Span) :=
  let imports := p.imports.mapIdx fun i d => (d.name, ⟨i, d.params, d.result⟩, Source.Span.empty)
  let functions := p.functions.mapIdx fun i f =>
    (f.name, ⟨p.imports.length + i, f.params.map Source.Param.ty, f.result⟩, f.span)
  imports ++ functions

/-- Enters callables into a table; a name that is taken is reported. -/
def enterAll (t : FunctionTable) :
    List (String × Signature × Source.Span) → FunctionTable × List Diagnostic
  | [] => (t, [])
  | (name, s, span) :: rest =>
    let (table, reports) := enterAll (t.insert name s) rest
    if (t.find? name).isSome then (table, ⟨.duplicateFunction name, span⟩ :: reports)
    else (table, reports)

/-- Binds the parameters of a function, numbered from `index` on. -/
def bindParams (span : Source.Span) (index : Nat) : List Source.Param → Lower Unit
  | [] => pure ()
  | p :: ps => do
    Lower.bindVariable p.name ⟨index, p.ty, false⟩ span
    bindParams span (index + 1) ps

/-- The body of a function over its lowered statements: where control can reach the end of a
function with a result, it traps. -/
def bodyNode (result : Ty) (nodes : List Node) : Node :=
  let ended := match nodes.getLast? with
    | some node => node.isTerminator
    | none => false
  .block none (if !result.isVoid && !ended then nodes ++ [.unreachable] else nodes)

/-- Checks that all label scopes of a function are closed. -/
def finish (function : String) : Lower Unit := do
  let depth := (← get).labels.depth
  if depth ≠ 0 then throw (.unbalancedScopes function depth)

/-- Lowers the parameters and statements of a function to its body. -/
def lowerBody (fc : FunctionContext) (f : Source.Function) : Lower Node := do
  bindParams f.span 0 f.params
  let nodes ← lowerAll fc f.body
  finish f.name
  pure (bodyNode f.result nodes)

/-- Lowers a function. -/
def lowerFunction (settings : Settings) (functions : FunctionTable) (f : Source.Function) :
    Except Error (Code.Function × List Diagnostic) :=
  let w := settings.width
  let params := f.params.map fun p => (⟨p.name, p.ty.slot w⟩ : Local)
  match lowerBody ⟨settings, functions, f.result⟩ f { locals := params } with
  | .ok body s => .ok
      ({ name := f.name
         params
         result := f.result.slot w
         -- The parameters are the first locals.
         locals := s.locals.drop params.length
         body
         isExported := f.isExported }, s.reports)
  | .error e _ => .error e

/-- Lowers an import. -/
def lowerImport (settings : Settings) (i : Source.Import) : Code.Import :=
  ⟨i.name, i.params.map (·.slot settings.width), i.result.slot settings.width⟩

/-- Lowers a program. -/
def lowerProgram (settings : Settings) (p : Program) : Except Error Lowered := do
  let (functions, duplicates) := enterAll {} (callables p)
  let lowered ← p.functions.mapM (lowerFunction settings functions)
  return {
    module := ⟨p.imports.map (lowerImport settings), lowered.map (·.1)⟩
    reports := duplicates ++ lowered.flatMap (·.2) }

end Weir.Lowering
