import Mathlib.Data.List.Forall2
import Weir.Proofs.AlikeLowering
import Weir.Proofs.ProgramTyping

/-!
# Functions are lowered separately

All functions of a program report to one list, and nothing that a function is lowered to depends on
what the list holds. So a function is lowered alike in all programs with the same callables, and the
reports of a program are those about names that are taken and then those of each function in turn.
Whether poisoned statements trap matters to the functions with such statements alone, and there to
the body alone.

## Key results

- `lowerFunctionInto_eq`: what was reported before a function is lowered does not matter
- `lowerProgram_eq_lowerThrough`: functions that report to one list, one after the other
- `lowerProgram_independent`: equal functions of programs with the same callables
- `lowerProgram_trapOnError`: programs with and without traps
-/

namespace Weir.Lowering

open Weir.Code (Local)
open Weir.Source (PointerWidth Program Span Stmt Ty)

/-! ## Attempts that end alike -/

/-- Two attempts fail with the same error, or succeed with results that are related. -/
inductive Alike {ε α : Type} (R : α → α → Prop) : Except ε α → Except ε α → Prop
  | ok {a a' : α} (related : R a a') : Alike R (.ok a) (.ok a')
  | error (e : ε) : Alike R (.error e) (.error e)

namespace Alike

variable {ε α β : Type} {R : β → β → Prop}

/-- Attempts at the members of a list end alike if the attempts at each of them do. -/
private theorem mapM {x x' : α → Except ε β} (h : ∀ a, Alike R (x a) (x' a)) (as : List α) :
    Alike (List.Forall₂ R) (as.mapM x) (as.mapM x') := by
  induction as with
  | nil => exact .ok .nil
  | cons a as ih =>
    rw [List.mapM_cons, List.mapM_cons]
    have ha := h a
    generalize x a = first at ha
    generalize x' a = second at ha
    generalize as.mapM x = rest at ih
    generalize as.mapM x' = rest' at ih
    -- The first error of the list is that of both runs.
    cases ha with
    | error e => exact .error e
    | ok hR =>
      cases ih with
      | error e => exact .error e
      | ok hrest => exact .ok (.cons hR hrest)

end Alike

/-! ## One function -/

/-- Lowers a function that reports to a list with reports in it. -/
def lowerFunctionInto (settings : Settings) (functions : FunctionTable) (f : Source.Function)
    (reports : List Diagnostic) : Except Error (Code.Function × List Diagnostic) :=
  let params := f.params.map fun p => (⟨p.name, p.ty.slot settings.width⟩ : Local)
  match lowerBody ⟨settings, functions, f.result⟩ f { locals := params, reports } with
  | .ok body s => .ok
      ({ name := f.name
         params
         result := f.result.slot settings.width
         locals := s.locals.drop params.length
         body
         isExported := f.isExported }, s.reports)
  | .error e _ => .error e

/-- A function and its reports, lowered a second time after `earlier` reports. All but the body is
the same, and so is the body unless something in it is poisoned by another node. -/
structure LoweredAgain (same : Prop) (earlier : List Diagnostic)
    (q q' : Code.Function × List Diagnostic) : Prop where
  reports : q'.2 = earlier ++ q.2
  head : q'.1 = { q.1 with body := q'.1.body }
  body : same ∨ Unpoisoned q.2 → q'.1.body = q.1.body

/-- What was reported before a function is lowered does not matter to it, and whether poisoned
statements trap only to its body. -/
private theorem lowerFunction_alike {same : Prop} (settings settings' : Settings)
    (hwidth : settings'.width = settings.width)
    (htrap : same → settings'.trapOnError = settings.trapOnError) (functions : FunctionTable)
    (f : Source.Function) (earlier : List Diagnostic) :
    Alike (LoweredAgain same earlier) (lowerFunction settings functions f)
      (lowerFunctionInto settings' functions f earlier) := by
  have hfc : FunctionContext.Parallels same ⟨settings, functions, f.result⟩
      ⟨settings', functions, f.result⟩ := ⟨hwidth, htrap, rfl, rfl⟩
  have h := lowerBody_parallels hfc f earlier
    { locals := f.params.map fun p => ⟨p.name, p.ty.slot settings.width⟩ }
  unfold lowerFunction lowerFunctionInto
  -- The list that the function reports to is empty but for the earlier reports.
  rw [State.after, List.append_nil] at h
  dsimp only
  rw [hwidth]
  generalize lowerBody ⟨settings, functions, f.result⟩ f _ = first at h ⊢
  generalize lowerBody ⟨settings', functions, f.result⟩ f _ = second at h ⊢
  cases h with
  | error e => exact .error e
  | @ok body body' st ds hds _ heq =>
    refine .ok ⟨rfl, rfl, fun hclean => heq trivial (hclean.imp id fun hall => ?_)⟩
    rwa [hds] at hall

/-- What was reported before a function is lowered does not matter to it. -/
theorem lowerFunctionInto_eq (settings : Settings) (functions : FunctionTable)
    (f : Source.Function) (earlier : List Diagnostic) :
    lowerFunctionInto settings functions f earlier =
      (lowerFunction settings functions f).map fun q => (q.1, earlier ++ q.2) := by
  have h : Alike (LoweredAgain True earlier) _ _ :=
    lowerFunction_alike settings settings rfl (fun _ => rfl) functions f earlier
  generalize lowerFunction settings functions f = first at h ⊢
  generalize lowerFunctionInto settings functions f earlier = second at h ⊢
  cases h with
  | error e => rfl
  | @ok q q' hq =>
    obtain ⟨g, reports⟩ := q'
    -- The second run is the first one behind the earlier reports, so it may differ in nothing else.
    have hhead := hq.head
    rw [hq.body (.inl trivial)] at hhead
    have hreports : reports = earlier ++ q.2 := hq.reports
    have hg : g = q.1 := hhead
    rw [hreports, hg]
    rfl

/-! ## Programs -/

/-- What is known of the callables of a program while its functions are lowered. -/
def functionTable (p : Program) : FunctionTable := (enterAll {} (callables p)).1

/-- The reports about names of callables that are taken. -/
def duplicateReports (p : Program) : List Diagnostic := (enterAll {} (callables p)).2

/-- A program put together from its lowered functions and their reports. -/
def assemble (settings : Settings) (p : Program)
    (parts : List (Code.Function × List Diagnostic)) : Lowered where
  module := ⟨p.imports.map (lowerImport settings), parts.map Prod.fst⟩
  reports := duplicateReports p ++ parts.flatMap Prod.snd

/-- The program is lowered to its functions in order. Whatever was reported before, a function
adds its own reports to it. -/
structure Lowered.ConsistsOf (settings : Settings) (p : Program) (r : Lowered)
    (parts : List (Code.Function × List Diagnostic)) : Prop where
  assembled : r = assemble settings p parts
  lowered : List.Forall₂ (fun f q => ∀ earlier,
    lowerFunctionInto settings (functionTable p) f earlier = .ok (q.1, earlier ++ q.2))
    p.functions parts

section

variable {settings : Settings} {p : Program} {r : Lowered}

/-- A program is lowered function by function, with one table of callees. -/
private theorem lowerProgram_eq (settings : Settings) (p : Program) :
    lowerProgram settings p =
      (p.functions.mapM (lowerFunction settings (functionTable p))).map
        (assemble settings p) := by
  unfold lowerProgram
  rw [functionTable]
  dsimp only
  cases p.functions.mapM (lowerFunction settings (enterAll {} (callables p)).1) <;> rfl

/-- What the functions lower to are the parts of the program. -/
private theorem consistsOf_of_mapM {parts : List (Code.Function × List Diagnostic)}
    (h : p.functions.mapM (lowerFunction settings (functionTable p)) = .ok parts) :
    (assemble settings p parts).ConsistsOf settings p parts := by
  have hparts : List.Forall₂
      (fun f q => lowerFunction settings (functionTable p) f = .ok q) p.functions parts := by
    have heach := map_eq_of_mapM h
    -- Equal images of two lists are a relation of their members.
    rw [← List.forall₂_eq_eq_eq, List.forall₂_map_left_iff, List.forall₂_map_right_iff] at heach
    exact heach
  refine ⟨rfl, hparts.imp fun f q hq earlier => ?_⟩
  rw [lowerFunctionInto_eq, hq]
  rfl

/-- A program that is lowered has parts. -/
private theorem exists_consistsOf (h : lowerProgram settings p = .ok r) :
    ∃ parts, r.ConsistsOf settings p parts := by
  rw [lowerProgram_eq] at h
  generalize hparts : p.functions.mapM (lowerFunction settings (functionTable p)) = lowered at h
  cases lowered with
  | error e => cases h
  | ok parts =>
    cases h
    exact ⟨parts, consistsOf_of_mapM hparts⟩

end

/-- A function of a program is lowered to the part in its place. -/
private theorem Lowered.ConsistsOf.exists_part {settings : Settings} {p : Program} {r : Lowered}
    {parts : List (Code.Function × List Diagnostic)} (h : r.ConsistsOf settings p parts) {k : Nat}
    {f : Source.Function} (hf : p.functions[k]? = some f) :
    ∃ q, parts[k]? = some q ∧ ∀ earlier,
      lowerFunctionInto settings (functionTable p) f earlier = .ok (q.1, earlier ++ q.2) := by
  obtain ⟨hlength, heach⟩ := List.forall₂_iff_get.1 h.lowered
  obtain ⟨hk, rfl⟩ := List.getElem?_eq_some_iff.1 hf
  have hk' : k < parts.length := hlength ▸ hk
  exact ⟨parts[k], List.getElem?_eq_getElem hk', heach k hk hk'⟩

/-- Lowers functions that report to one list, one after the other. -/
def lowerThrough (settings : Settings) (functions : FunctionTable) :
    List Source.Function → List Diagnostic → Except Error (List Code.Function × List Diagnostic)
  | [], reports => .ok ([], reports)
  | f :: fs, reports => do
    let (g, reports) ← lowerFunctionInto settings functions f reports
    let (gs, reports) ← lowerThrough settings functions fs reports
    return (g :: gs, reports)

/-- Handing the reports on is the same as appending them in the end. -/
private theorem lowerThrough_eq (settings : Settings) (functions : FunctionTable)
    (fs : List Source.Function) (reports : List Diagnostic) :
    lowerThrough settings functions fs reports =
      (fs.mapM (lowerFunction settings functions)).map fun parts =>
        (parts.map Prod.fst, reports ++ parts.flatMap Prod.snd) := by
  induction fs generalizing reports with
  | nil =>
    show _ = Except.ok ([], reports ++ [])
    rw [List.append_nil, lowerThrough]
  | cons f fs ih =>
    rw [lowerThrough, List.mapM_cons, lowerFunctionInto_eq]
    cases lowerFunction settings functions f with
    | error e => rfl
    | ok q =>
      -- The later functions find the reports of this one behind those before.
      show (lowerThrough settings functions fs (reports ++ q.2) >>= _) = _
      rw [ih]
      cases fs.mapM (lowerFunction settings functions) with
      | error e => rfl
      | ok parts =>
        show Except.ok (_, _) = Except.ok (_, _)
        rw [List.flatMap_cons, List.append_assoc]
        rfl

/-- Lowering a program is the same if all functions report to one list, which starts with the
reports about names that are taken. -/
theorem lowerProgram_eq_lowerThrough (settings : Settings) (p : Program) :
    lowerProgram settings p =
      (lowerThrough settings (functionTable p) p.functions (duplicateReports p)).map fun r =>
        ⟨⟨p.imports.map (lowerImport settings), r.1⟩, r.2⟩ := by
  rw [lowerProgram_eq, lowerThrough_eq]
  cases p.functions.mapM (lowerFunction settings (functionTable p)) <;> rfl

/-! ## Programs with the same callables -/

/-- What callers know of a function: its name, the types of its parameters and of its result. -/
def signatureOf (f : Source.Function) : String × List Ty × Ty :=
  (f.name, f.params.map Source.Param.ty, f.result)

/-- The places of the entries do not matter to the table. -/
private theorem enterAll_congr {cs cs' : List (String × Signature × Span)}
    (h : cs'.map (fun c => (c.1, c.2.1)) = cs.map fun c => (c.1, c.2.1)) (t : FunctionTable) :
    (enterAll t cs').1 = (enterAll t cs).1 := by
  -- A duplicate name is reported, and the table keeps its first entry.
  have hfirst : ∀ (t : FunctionTable) (c : String × Signature × Span) cs,
      (enterAll t (c :: cs)).1 = (enterAll (t.insert c.1 c.2.1) cs).1 := by
    intro t c cs
    simp only [enterAll]
    split <;> rfl
  induction cs generalizing cs' t with
  | nil =>
    rw [List.map_nil, List.map_eq_nil_iff] at h
    rw [h]
  | cons c cs ih =>
    obtain ⟨c', cs', rfl, hc, hcs⟩ := List.map_eq_cons_iff.1 h
    obtain ⟨hname, hsignature⟩ := Prod.mk.inj hc
    rw [hfirst, hfirst, hname, hsignature]
    exact ih hcs _

/-- Functions with the same signatures after the same imports are known alike, wherever they
stand in the text. -/
private theorem functionTable_congr {p p' : Program} (himports : p'.imports = p.imports)
    (hsignatures : p'.functions.map signatureOf = p.functions.map signatureOf) :
    functionTable p' = functionTable p := by
  refine enterAll_congr ?_ {}
  have hcallables : ∀ p : Program, (callables p).map (fun c => (c.1, c.2.1)) =
      (p.imports.mapIdx fun i d => (d.name, (⟨i, d.params, d.result⟩ : Signature))) ++
        (p.functions.map signatureOf).mapIdx fun i q =>
          (q.1, ⟨p.imports.length + i, q.2.1, q.2.2⟩) := by
    intro p
    simp only [callables, List.mapIdx_eq_zipIdx_map, List.zipIdx_map, List.map_append,
      List.map_map, Function.comp_def, Prod.map, id, signatureOf]
  rw [hcallables, hcallables, himports, hsignatures]

/-- In programs with the same imports and the same signatures of functions, a function that both
have in the same place is lowered to the same function and reports the same, whatever the other
functions are: the reports of a program are those about names that are taken, and then those of
each function in turn. -/
theorem lowerProgram_independent {settings : Settings} {p p' : Program} {r r' : Lowered}
    (himports : p'.imports = p.imports)
    (hsignatures : p'.functions.map signatureOf = p.functions.map signatureOf)
    (h : lowerProgram settings p = .ok r) (h' : lowerProgram settings p' = .ok r') :
    ∃ parts parts' : List (Code.Function × List Diagnostic),
      r.ConsistsOf settings p parts ∧ r'.ConsistsOf settings p' parts' ∧
      ∀ (k : Nat) f, p.functions[k]? = some f → p'.functions[k]? = some f →
        ∃ g reports, parts[k]? = some (g, reports) ∧ parts'[k]? = some (g, reports) ∧
          r.module.functions[k]? = some g ∧ r'.module.functions[k]? = some g := by
  obtain ⟨parts, hparts⟩ := exists_consistsOf h
  obtain ⟨parts', hparts'⟩ := exists_consistsOf h'
  refine ⟨parts, parts', hparts, hparts', fun k f hf hf' => ?_⟩
  obtain ⟨q, hq, hlowered⟩ := hparts.exists_part hf
  obtain ⟨q', hq', hlowered'⟩ := hparts'.exists_part hf'
  -- Both functions are lowered with the same table.
  rw [functionTable_congr himports hsignatures] at hlowered'
  obtain rfl : q' = q := by
    have heq := (hlowered' []).symm.trans (hlowered [])
    rw [List.nil_append, List.nil_append] at heq
    exact Except.ok.inj heq
  refine ⟨q'.1, q'.2, hq, hq', ?_, ?_⟩
  · rw [hparts.assembled, assemble, List.getElem?_map, hq, Option.map_some]
  · rw [hparts'.assembled, assemble, List.getElem?_map, hq', Option.map_some]

/-- A function that returns nothing in a loop. -/
def early : Source.Function where
  name := "f"
  params := [⟨"n", .i32⟩]
  result := .i32
  bodySpan := .empty
  body := [.whileStmt .empty (.call .empty ⟨.empty, "g"⟩ [.name .empty "n"])
    (some (.returnStmt ⟨7, 8, 0⟩ none))]
  isExported := false
  span := ⟨5, 9, 0⟩

/-- The function `early` after another one, whose name and statements are given. The callable `g` is
imported. -/
def afterOther (body : List Stmt) : Program where
  imports := [⟨"g", [.i32], .bool⟩]
  functions := [
    { name := "f", params := [], result := .void, bodySpan := .empty, body, isExported := true,
      span := .empty },
    early]

/-- A function in front of it that opens label scopes, declares variables and reports problems does
not matter to `early`. -/
theorem early_independent :
    let busy : List Stmt := [
      .whileStmt .empty (.name ⟨1, 2, 0⟩ "m") (some (.returnStmt .empty (some (.name .empty "k")))),
      .varDecl .empty .letVar [⟨⟨.empty, "k"⟩, some .i32, none⟩]]
    ∃ r r', lowerProgram {} (afterOther []) = .ok r ∧ lowerProgram {} (afterOther busy) = .ok r' ∧
      r.reports.map Diagnostic.problem = [.duplicateFunction "f", .missingReturnValue] ∧
      r'.reports.map Diagnostic.problem = [.duplicateFunction "f", .returnValueInVoidFunction,
        .unknownIdentifier "m", .missingReturnValue] ∧
      ∃ g, r.module.functions[1]? = some g ∧ r'.module.functions[1]? = some g := by
  intro busy
  have hquiet : ∃ r, lowerProgram {} (afterOther []) = .ok r ∧
      r.reports.map Diagnostic.problem = [.duplicateFunction "f", .missingReturnValue] :=
    ⟨_, rfl, rfl⟩
  have hbusy : ∃ r, lowerProgram {} (afterOther busy) = .ok r ∧
      r.reports.map Diagnostic.problem = [.duplicateFunction "f", .returnValueInVoidFunction,
        .unknownIdentifier "m", .missingReturnValue] := ⟨_, rfl, rfl⟩
  obtain ⟨r, hr, hreports⟩ := hquiet
  obtain ⟨r', hr', hreports'⟩ := hbusy
  have himports : (afterOther busy).imports = (afterOther []).imports := rfl
  have hsignatures : (afterOther busy).functions.map signatureOf =
      (afterOther []).functions.map signatureOf := rfl
  obtain ⟨parts, parts', -, -, h⟩ := lowerProgram_independent himports hsignatures hr hr'
  obtain ⟨g, reports, -, -, hg, hg'⟩ := h 1 early rfl rfl
  exact ⟨r, r', hr, hr', hreports, hreports', g, hg, hg'⟩

/-! ## Programs with and without traps -/

/-- What callers see of a callee: its name, the slots of its parameters and of its result. -/
def headOf (c : Code.Callee) : String × List Code.Slot × Code.Slot := (c.name, c.params, c.result)

/-- What related members agree on is the same for the lists. -/
private theorem map_eq_of_forall₂ {α β : Type} {R : α → α → Prop} {f : α → β} {as as' : List α}
    (h : List.Forall₂ R as as') (hf : ∀ a a', R a a' → f a' = f a) : as'.map f = as.map f := by
  induction h with
  | nil => rfl
  | cons hR _ ih => rw [List.map_cons, List.map_cons, hf _ _ hR, ih]

/-- Whether poisoned statements trap does not matter to whether a program is refused and why, to its
reports, its imports, the numbers of its callables and what callers see of them, or to anything but
the body of a function. Where no `return` is reported in a function, it does not matter to the body
either. -/
theorem lowerProgram_trapOnError (width : PointerWidth) (p : Program) :
    Alike (fun r r' =>
        r'.reports = r.reports ∧ r'.module.imports = r.module.imports ∧
        (∀ id, (r'.module.callee? id).map headOf = (r.module.callee? id).map headOf) ∧
        ∃ parts parts' : List (Code.Function × List Diagnostic),
          r.ConsistsOf ⟨width, true⟩ p parts ∧ r'.ConsistsOf ⟨width, false⟩ p parts' ∧
          List.Forall₂ (fun q q' => q'.2 = q.2 ∧ q'.1 = { q.1 with body := q'.1.body } ∧
            (Unpoisoned q.2 → q'.1 = q.1)) parts parts')
      (lowerProgram ⟨width, true⟩ p) (lowerProgram ⟨width, false⟩ p) := by
  -- Each function is lowered twice, and its two runs are alike.
  have heach : ∀ f, Alike (LoweredAgain False [])
      (lowerFunction ⟨width, true⟩ (functionTable p) f)
      (lowerFunction ⟨width, false⟩ (functionTable p) f) :=
    fun f => lowerFunction_alike ⟨width, true⟩ ⟨width, false⟩ rfl False.elim (functionTable p) f []
  have h := Alike.mapM heach p.functions
  rw [lowerProgram_eq, lowerProgram_eq]
  generalize hparts : p.functions.mapM (lowerFunction ⟨width, true⟩ _) = first at h ⊢
  generalize hparts' : p.functions.mapM (lowerFunction ⟨width, false⟩ _) = second at h ⊢
  cases h with
  | error e => exact .error e
  | @ok parts parts' hagain =>
    -- What callers see of a function is not in its body.
    have hreports : parts'.map Prod.snd = parts.map Prod.snd :=
      map_eq_of_forall₂ hagain fun q q' hq => hq.reports
    have hheads : (parts'.map fun q => headOf (.defined q.1)) =
        parts.map fun q => headOf (.defined q.1) :=
      map_eq_of_forall₂ hagain fun q q' hq => by
        rw [hq.head]
        rfl
    refine .ok ⟨?_, rfl, fun id => ?_, parts, parts', consistsOf_of_mapM hparts,
      consistsOf_of_mapM hparts', ?_⟩
    · simp only [assemble, List.flatMap_def, hreports]
    · have hhead := congrArg (·[id - p.imports.length]?) hheads
      simp only [List.getElem?_map] at hhead
      simp only [assemble, Code.Module.callee?, List.length_map]
      split
      · rfl
      · simp only [List.getElem?_map, Option.map_map, Function.comp_def]
        exact hhead
    · exact hagain.imp fun q q' hq => ⟨hq.reports, hq.head, fun hclean => by
        rw [hq.head, hq.body (.inr hclean)]⟩

/-- Without traps nothing is left of the body of the loop, so that the loop only asks again. -/
example :
    (lowerFunction ⟨.w32, false⟩ (functionTable (afterOther [])) early).map (·.1.body) =
      .ok (.block none [
        .block (some ⟨.exit, 0⟩) [.loop ⟨.next, 0⟩
          (.ifThen .none (.call 0 [.localGet 0 .i32] .i32) (.br ⟨.next, 0⟩))],
        .unreachable]) := rfl

end Weir.Lowering
