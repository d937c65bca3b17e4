import Weir.Proofs.JsonNumbers
import Weir.Proofs.ProgramEncoding

/-!
# Programs that are read

JSON has no numbers that are not finite, so a program that is read has none. Hence what is written
for a program that has been read, whatever the spelling it was read from, is read as that program.

## Key results

- `Program.isFinite_of_ofJson?`: the numbers in a program that is read are finite
- `Program.isWritable_toJson`: what is written for a program has just the numbers of JSON
- `Program.ofJson?_toJson_iff`: which programs are read back, those that were read among them
-/

namespace Weir

namespace Source

open Decoder

/-- Where a decoder of contents yields only good values, so does the decoder of a value with a
    place. -/
private theorem yields_spanned {α : Type} {d : Span → Decoder α} {P : α → Prop}
    (hd : ∀ span, (d span).Yields P) : (spanned d).Yields P := by
  intro n j a hj h
  simp only [spanned, Option.bind_eq_bind, Option.bind_eq_some_iff] at h
  obtain ⟨r, hr, span, -, ha⟩ := h
  exact Fields.of_required (isWritable_of_fields? hj hr) (hd span) ha

/-- A literal that is read from a writable document is finite. -/
private theorem Literal.decoder_yields :
    Literal.decoder.Yields fun v => ∀ x ∈ v.floats, x.isFinite := by
  intro n j v hj h
  unfold Literal.decoder at h
  split at h
  · obtain ⟨i, -, rfl⟩ := Option.map_eq_some_iff.1 h
    intro x hx
    cases hx
  · -- Only this case holds a number, and it was written in the document.
    next htag =>
    obtain ⟨x, hx, rfl⟩ := Option.map_eq_some_iff.1 h
    rw [Literal.floats, List.forall_mem_singleton]
    exact yields_double _ _ _ (isWritable_of_tagged? hj htag) hx
  · obtain ⟨b, -, rfl⟩ := Option.map_eq_some_iff.1 h
    intro x hx
    cases hx
  · cases h

/-- A property of all numbers in expressions is one of the numbers in each of them. -/
private theorem forall_mem_floatsAll {es : List Expr} {P : Double → Prop}
    (h : ∀ e ∈ es, ∀ x ∈ e.floats, P x) : ∀ x ∈ Expr.floatsAll es, P x := by
  induction es with
  | nil => intro x hx; cases hx
  | cons e es ih =>
    rw [List.forall_mem_cons] at h
    rw [Expr.floatsAll, List.forall_mem_append]
    exact ⟨h.1, ih h.2⟩

/-- The numbers in an expression that is read are finite. -/
private theorem Expr.decoder_yields (k : Nat) :
    (Expr.decoder k).Yields fun e => ∀ x ∈ e.floats, x.isFinite := by
  -- The induction is on the depth that may be read. Nothing is read at depth zero, and the parts of
  -- an expression are read at a depth below it.
  induction k with
  | zero => intro n j e _ h; cases h
  | succ k ih =>
    refine yields_spanned fun span n j e hj h => ?_
    -- The cases are the tags of expressions, in the order of the decoder.
    split at h
    · next htag =>
      obtain ⟨v, hv, rfl⟩ := Option.map_eq_some_iff.1 h
      exact Literal.decoder_yields _ _ _ (isWritable_of_tagged? hj htag) hv
    · obtain ⟨x, -, rfl⟩ := Option.map_eq_some_iff.1 h
      intro x hx
      cases hx
    · -- A binary operator: the numbers are those of both operands.
      next htag =>
      simp only [Option.bind_eq_bind, Option.bind_eq_some_iff, Option.pure_def,
        Option.some.injEq] at h
      obtain ⟨r, hr, op, -, left, hleft, right, hright, rfl⟩ := h
      have hr := isWritable_of_record hj htag hr
      rw [Expr.floats, List.forall_mem_append]
      exact ⟨Fields.of_required hr ih hleft, Fields.of_required hr ih hright⟩
    · next htag =>
      simp only [Option.bind_eq_bind, Option.bind_eq_some_iff, Option.pure_def,
        Option.some.injEq] at h
      obtain ⟨r, hr, op, -, operand, hoperand, rfl⟩ := h
      rw [Expr.floats]
      exact Fields.of_required (isWritable_of_record hj htag hr) ih hoperand
    · next htag =>
      simp only [Option.bind_eq_bind, Option.bind_eq_some_iff, Option.pure_def,
        Option.some.injEq] at h
      obtain ⟨r, hr, op, -, target, -, value, hvalue, rfl⟩ := h
      rw [Expr.floats]
      exact Fields.of_required (isWritable_of_record hj htag hr) ih hvalue
    · -- A call: the callee is a name, so all numbers are in the arguments.
      next htag =>
      simp only [Option.bind_eq_bind, Option.bind_eq_some_iff, Option.pure_def,
        Option.some.injEq] at h
      obtain ⟨r, hr, callee, -, args, hargs, rfl⟩ := h
      exact forall_mem_floatsAll
        (Fields.of_required (isWritable_of_record hj htag hr) (yields_list ih) hargs)
    · next htag =>
      simp only [Option.bind_eq_bind, Option.bind_eq_some_iff, Option.pure_def,
        Option.some.injEq] at h
      obtain ⟨r, hr, operand, hoperand, ty, -, rfl⟩ := h
      rw [Expr.floats]
      exact Fields.of_required (isWritable_of_record hj htag hr) ih hoperand
    · next htag =>
      obtain ⟨inner, hinner, rfl⟩ := Option.map_eq_some_iff.1 h
      exact ih _ _ inner (isWritable_of_tagged? hj htag) hinner
    · cases h

/-- A property of all numbers in an expression that may be missing. -/
private theorem forall_mem_floatsOption {o : Option Expr} {P : Double → Prop}
    (h : ∀ e ∈ o, ∀ x ∈ e.floats, P x) : ∀ x ∈ Expr.floatsOption o, P x := by
  cases o with
  | none => intro x hx; cases hx
  | some e => exact h e rfl

/-- An initial value that is read from a writable document has finite numbers. -/
private theorem Declarator.decoder_yields (k : Nat) :
    (Declarator.decoder k).Yields fun d => ∀ x ∈ d.floats, x.isFinite := by
  intro n j d hj h
  simp only [Declarator.decoder, Option.bind_eq_bind, Option.bind_eq_some_iff, Option.pure_def,
    Option.some.injEq] at h
  obtain ⟨r, hr, ident, -, declared, -, init, hinit, rfl⟩ := h
  refine forall_mem_floatsOption (Fields.of_orElse (isWritable_of_fields? hj hr)
    (yields_nullable (Expr.decoder_yields k)) ?_ hinit)
  -- A value that is left out is none.
  intro e he
  cases he

/-- A property of all numbers in a statement that may be missing. -/
private theorem forall_mem_floatsOption_stmt {o : Option Stmt} {P : Double → Prop}
    (h : ∀ s ∈ o, ∀ x ∈ s.floats, P x) : ∀ x ∈ Stmt.floatsOption o, P x := by
  cases o with
  | none => intro x hx; cases hx
  | some s => exact h s rfl

/-- A property of all numbers in statements is one of the numbers in each of them. -/
private theorem forall_mem_floatsAll_stmt {ss : List Stmt} {P : Double → Prop}
    (h : ∀ s ∈ ss, ∀ x ∈ s.floats, P x) : ∀ x ∈ Stmt.floatsAll ss, P x := by
  induction ss with
  | nil => intro x hx; cases hx
  | cons s ss ih =>
    rw [List.forall_mem_cons] at h
    rw [Stmt.floatsAll, List.forall_mem_append]
    exact ⟨h.1, ih h.2⟩

/-- The floating-point literals in a clause. -/
def Clause.floats (c : Clause) : List Double := Clause.floatsAll [c]

/-- A property of all numbers in clauses is one of the numbers in each of them. -/
private theorem forall_mem_floatsAll_clause {cs : List Clause} {P : Double → Prop}
    (h : ∀ c ∈ cs, ∀ x ∈ Clause.floats c, P x) : ∀ x ∈ Clause.floatsAll cs, P x := by
  induction cs with
  | nil => intro x hx; cases hx
  | cons c cs ih =>
    -- The numbers of a clause are those of the list that holds nothing else.
    obtain ⟨test, body, span⟩ := c
    rw [List.forall_mem_cons, Clause.floats, Clause.floatsAll, Clause.floatsAll,
      List.append_nil] at h
    rw [Clause.floatsAll, List.forall_mem_append]
    exact ⟨h.1, ih h.2⟩

section

variable {d : Decoder Stmt} (hd : d.Yields fun s => ∀ x ∈ s.floats, x.isFinite)

include hd

/-- The statements of a block have finite numbers if single statements do. -/
private theorem stmtsDecoder_yields :
    (stmtsDecoder d).Yields fun ss => ∀ x ∈ Stmt.floatsAll ss, x.isFinite := by
  intro n j ss hj h
  simp only [stmtsDecoder, Option.bind_eq_bind, Option.bind_eq_some_iff] at h
  obtain ⟨r, hr, hss⟩ := h
  exact forall_mem_floatsAll_stmt
    (Fields.of_required (isWritable_of_fields? hj hr) (yields_list hd) hss)

/-- A clause has finite numbers if statements do. -/
private theorem Clause.decoder_yields (k : Nat) :
    (Clause.decoder (Expr.decoder k) d).Yields fun c => ∀ x ∈ c.floats, x.isFinite := by
  intro n j c hj h
  simp only [Clause.decoder, Option.bind_eq_bind, Option.bind_eq_some_iff, Option.pure_def,
    Option.some.injEq] at h
  obtain ⟨r, hr, test, htest, body, hbody, span, -, rfl⟩ := h
  have hr := isWritable_of_fields? hj hr
  rw [Clause.floats, Clause.floatsAll, Clause.floatsAll, List.append_nil, List.forall_mem_append]
  constructor
  · -- The test may be left out, and then the clause is the default one.
    refine forall_mem_floatsOption
      (Fields.of_orElse hr (yields_nullable (Expr.decoder_yields k)) ?_ htest)
    intro e he
    cases he
  · -- So may the body, and then it is empty.
    refine forall_mem_floatsAll_stmt (Fields.of_orElse hr (yields_list hd) ?_ hbody)
    intro s hs
    cases hs

end

/-- The numbers in a statement that is read are finite. -/
private theorem Stmt.decoder_yields (k : Nat) :
    (Stmt.decoder k).Yields fun s => ∀ x ∈ s.floats, x.isFinite := by
  induction k with
  | zero => intro n j s _ h; cases h
  | succ k ih =>
    -- Expressions are one level below the statement that they are in.
    have hexpr := Expr.decoder_yields k
    refine yields_spanned fun span n j s hj h => ?_
    split at h
    -- The cases are the tags of statements, those without content first and each in two spellings.
    iterate 6
      · cases h
        intro x hx
        cases hx
    · next htag =>
      obtain ⟨e, he, rfl⟩ := Option.map_eq_some_iff.1 h
      exact hexpr _ _ _ (isWritable_of_tagged? hj htag) he
    · -- A declaration.
      next htag =>
      simp only [Option.bind_eq_bind, Option.bind_eq_some_iff, Option.pure_def,
        Option.some.injEq] at h
      obtain ⟨r, hr, kind, -, ds, hds, rfl⟩ := h
      have hr := isWritable_of_record hj htag hr
      rw [Stmt.floats, List.forall_mem_flatMap]
      exact Fields.of_required hr (yields_list (Declarator.decoder_yields k)) hds
    · next htag =>
      obtain ⟨o, ho, rfl⟩ := Option.map_eq_some_iff.1 h
      exact forall_mem_floatsOption
        (yields_nullable hexpr _ _ _ (isWritable_of_tagged? hj htag) ho)
    · -- An `if` statement.
      next htag =>
      simp only [Option.bind_eq_bind, Option.bind_eq_some_iff, Option.pure_def,
        Option.some.injEq] at h
      obtain ⟨r, hr, c, hc, t, ht, e, he, rfl⟩ := h
      have hr := isWritable_of_record hj htag hr
      rw [Stmt.floats, List.forall_mem_append, List.forall_mem_append]
      exact ⟨⟨Fields.of_required hr hexpr hc, Fields.of_required hr ih ht⟩,
        forall_mem_floatsOption_stmt (Fields.of_nullable hr ih he)⟩
    · -- A `for` statement.
      next htag =>
      simp only [Option.bind_eq_bind, Option.bind_eq_some_iff, Option.pure_def,
        Option.some.injEq] at h
      obtain ⟨r, hr, init, hinit, c, hc, u, hu, body, hbody, rfl⟩ := h
      have hr := isWritable_of_record hj htag hr
      rw [Stmt.floats, List.forall_mem_append, List.forall_mem_append, List.forall_mem_append]
      exact ⟨⟨⟨forall_mem_floatsOption_stmt (Fields.of_nullable hr ih hinit),
        forall_mem_floatsOption (Fields.of_nullable hr hexpr hc)⟩,
        forall_mem_floatsOption (Fields.of_nullable hr hexpr hu)⟩,
        forall_mem_floatsOption_stmt (Fields.of_nullable hr ih hbody)⟩
    · next htag =>
      simp only [Option.bind_eq_bind, Option.bind_eq_some_iff, Option.pure_def,
        Option.some.injEq] at h
      obtain ⟨r, hr, c, hc, body, hbody, rfl⟩ := h
      have hr := isWritable_of_record hj htag hr
      rw [Stmt.floats, List.forall_mem_append]
      exact ⟨Fields.of_required hr hexpr hc,
        forall_mem_floatsOption_stmt (Fields.of_nullable hr ih hbody)⟩
    · next htag =>
      simp only [Option.bind_eq_bind, Option.bind_eq_some_iff, Option.pure_def,
        Option.some.injEq] at h
      obtain ⟨r, hr, body, hbody, c, hc, rfl⟩ := h
      have hr := isWritable_of_record hj htag hr
      rw [Stmt.floats, List.forall_mem_append]
      exact ⟨Fields.of_required hr ih hbody, Fields.of_required hr hexpr hc⟩
    · next htag =>
      obtain ⟨ss, hss, rfl⟩ := Option.map_eq_some_iff.1 h
      exact stmtsDecoder_yields ih _ _ _ (isWritable_of_tagged? hj htag) hss
    · -- A switch.
      next htag =>
      simp only [Option.bind_eq_bind, Option.bind_eq_some_iff, Option.pure_def,
        Option.some.injEq] at h
      obtain ⟨r, hr, d, hd, cs, hcs, rfl⟩ := h
      have hr := isWritable_of_record hj htag hr
      rw [Stmt.floats, List.forall_mem_append]
      exact ⟨Fields.of_required hr hexpr hd, forall_mem_floatsAll_clause
        (Fields.of_required hr (yields_list (Clause.decoder_yields ih k)) hcs)⟩
    · cases h

/-- A function that is read from a writable document has finite numbers. -/
private theorem Function.decoder_yields (k : Nat) :
    (Function.decoder k).Yields fun f => ∀ x ∈ Stmt.floatsAll f.body, x.isFinite := by
  intro n j f hj h
  simp only [Function.decoder, Option.bind_eq_bind, Option.bind_eq_some_iff, Option.pure_def,
    Option.some.injEq] at h
  obtain ⟨r, hr, ⟨bodySpan, body⟩, hbody, name, -, params, -, result, -, exported, -, span, -,
    rfl⟩ := h
  -- The body is a block with a place of its own.
  have hblock : (spanned fun span n j =>
      (stmtsDecoder (Stmt.decoder k) n j).map (span, ·)).Yields
      fun b => ∀ x ∈ Stmt.floatsAll b.2, x.isFinite := by
    refine yields_spanned fun span n j b hj hb => ?_
    obtain ⟨ss, hss, rfl⟩ := Option.map_eq_some_iff.1 hb
    exact stmtsDecoder_yields (Stmt.decoder_yields k) _ _ _ hj hss
  exact Fields.of_required (isWritable_of_fields? hj hr) hblock hbody

/-- The numbers in a program that is read are finite. -/
theorem Program.isFinite_of_ofJson? {limit : Nat} {j : Json} {p : Program} (hj : j.isWritable)
    (h : Program.ofJson? limit j = some p) : ∀ x ∈ p.floats, x.isFinite := by
  simp only [Program.ofJson?, Program.decoder, Option.bind_eq_bind, Option.bind_eq_some_iff,
    Option.pure_def, Option.some.injEq] at h
  obtain ⟨r, hr, imports, -, functions, hfunctions, rfl⟩ := h
  rw [Program.floats, List.forall_mem_flatMap]
  refine Fields.of_orElse (isWritable_of_fields? hj hr)
    (yields_list (Function.decoder_yields limit)) ?_ hfunctions
  intro f hf
  cases hf

/-! ## What is written for a program -/

/-- A place is written as three numbers that fit 64 bits. -/
private theorem Span.isWritable_toJson (s : Span) : s.toJson.isWritable := by
  have hstart := s.start.toNat_lt
  have hstop := s.stop.toNat_lt
  have hfile := s.fileId.toNat_lt
  simp only [Span.toJson, Json.isWritable, Json.areWritableFields, Bool.and_true,
    Bool.and_eq_true, decide_eq_true_eq]
  omega

@[simp] theorem isWritable_withSpan (span : Span) (value : Json) :
    (withSpan span value).isWritable = value.isWritable := by
  simp [withSpan, Json.isWritable, Json.areWritableFields, span.isWritable_toJson]

@[simp] theorem isWritable_withTag (tag : String) (content : Json) :
    (withTag tag content).isWritable = content.isWritable := by
  simp [withTag, Json.isWritable, Json.areWritableFields]

private theorem Ty.isWritable_toJson (t : Ty) : t.toJson.isWritable := rfl

/-- A literal can be written: numbers that are not finite are written as null. -/
private theorem Literal.isWritable_toJson (v : Literal) : v.toJson.isWritable := by
  cases v with
  | int value =>
    have hlo := value.le_toInt
    have hhi := value.toInt_lt
    simp only [Literal.toJson, isWritable_withTag, Json.isWritable, decide_eq_true_eq]
    omega
  | float x =>
    rw [Literal.toJson, isWritable_withTag, Json.ofDouble]
    split
    · next hx => exact hx
    · rfl
  | boolean b => rfl

mutual

/-- Every expression can be written, whatever numbers are in it. -/
private theorem Expr.isWritable_toJson (e : Expr) : e.toJson.isWritable := by
  match e with
  | .literal _ v => simp [Expr.toJson, v.isWritable_toJson]
  | .name .. => simp [Expr.toJson, Json.isWritable]
  | .binary _ _ left right =>
    simp [Expr.toJson, Json.isWritable, Json.areWritableFields, left.isWritable_toJson,
      right.isWritable_toJson]
  | .unary _ _ operand =>
    simp [Expr.toJson, Json.isWritable, Json.areWritableFields, operand.isWritable_toJson]
  | .assign _ _ target value =>
    simp [Expr.toJson, Ident.toJson, Json.isWritable, Json.areWritableFields,
      value.isWritable_toJson]
  | .call _ callee args =>
    simp [Expr.toJson, Ident.toJson, Json.isWritable, Json.areWritableFields,
      Expr.areWritable_toJson args]
  | .cast _ operand ty =>
    simp [Expr.toJson, Ty.toJson, Json.isWritable, Json.areWritableFields,
      operand.isWritable_toJson]
  | .paren _ inner => simp [Expr.toJson, inner.isWritable_toJson]
termination_by structural e

private theorem Expr.areWritable_toJson (es : List Expr) : Json.areWritable (exprsToJson es) := by
  match es with
  | [] => rfl
  | e :: es =>
    simp [exprsToJson, Json.areWritable, e.isWritable_toJson, Expr.areWritable_toJson es]
termination_by structural es

end

private theorem Expr.isWritable_orNull (o : Option Expr) : (orNull Expr.toJson o).isWritable := by
  cases o with
  | none => rfl
  | some e => exact e.isWritable_toJson

/-- A list can be written if its elements can be. -/
private theorem areWritable_map {α : Type} {f : α → Json} {as : List α}
    (h : ∀ a ∈ as, (f a).isWritable) : Json.areWritable (as.map f) := by
  induction as with
  | nil => rfl
  | cons a as ih =>
    rw [List.forall_mem_cons] at h
    rw [List.map_cons, Json.areWritable, h.1, ih h.2, Bool.and_self]

private theorem Ty.isWritable_orNull (o : Option Ty) : (orNull Ty.toJson o).isWritable := by
  cases o <;> rfl

private theorem Declarator.isWritable_toJson (d : Declarator) : d.toJson.isWritable := by
  simp [Declarator.toJson, Ident.toJson, Json.isWritable, Json.areWritableFields,
    Ty.isWritable_orNull, Expr.isWritable_orNull]

mutual

/-- Every statement can be written. -/
private theorem Stmt.isWritable_toJson (s : Stmt) : s.toJson.isWritable := by
  match s with
  | .exprStmt _ e => simp [Stmt.toJson, e.isWritable_toJson]
  | .varDecl _ _ ds =>
    have hds := areWritable_map fun d (_ : d ∈ ds) => d.isWritable_toJson
    simp [Stmt.toJson, Json.isWritable, Json.areWritableFields, hds]
  | .returnStmt _ value => simp [Stmt.toJson, Expr.isWritable_orNull]
  | .ifStmt _ c t e =>
    simp [Stmt.toJson, Json.isWritable, Json.areWritableFields, c.isWritable_toJson,
      t.isWritable_toJson, Stmt.isWritable_toJson? e]
  | .forStmt _ init c u body =>
    simp [Stmt.toJson, Json.isWritable, Json.areWritableFields, Expr.isWritable_orNull,
      Stmt.isWritable_toJson? init, Stmt.isWritable_toJson? body]
  | .whileStmt _ c body =>
    simp [Stmt.toJson, Json.isWritable, Json.areWritableFields, c.isWritable_toJson,
      Stmt.isWritable_toJson? body]
  | .doWhile _ body c =>
    simp [Stmt.toJson, Json.isWritable, Json.areWritableFields, c.isWritable_toJson,
      body.isWritable_toJson]
  | .block _ ss =>
    simp [Stmt.toJson, Json.isWritable, Json.areWritableFields, Stmt.areWritable_toJson ss]
  | .breakStmt _ | .continueStmt _ | .empty _ => simp [Stmt.toJson, Json.isWritable]
  | .switchStmt _ d cs =>
    simp [Stmt.toJson, Json.isWritable, Json.areWritableFields, d.isWritable_toJson,
      Clause.areWritable_toJson cs]
termination_by structural s

private theorem Stmt.isWritable_toJson? (o : Option Stmt) : (stmtToJson? o).isWritable := by
  match o with
  | none => rfl
  | some s => exact s.isWritable_toJson
termination_by structural o

private theorem Stmt.areWritable_toJson (ss : List Stmt) : Json.areWritable (stmtsToJson ss) := by
  match ss with
  | [] => rfl
  | s :: ss =>
    simp [stmtsToJson, Json.areWritable, s.isWritable_toJson, Stmt.areWritable_toJson ss]
termination_by structural ss

private theorem Clause.areWritable_toJson (cs : List Clause) :
    Json.areWritable (clausesToJson cs) := by
  match cs with
  | [] => rfl
  | .mk test body span :: cs =>
    simp [clausesToJson, Json.areWritable, Json.isWritable, Json.areWritableFields,
      Expr.isWritable_orNull, span.isWritable_toJson, Stmt.areWritable_toJson body,
      Clause.areWritable_toJson cs]
termination_by structural cs

end

private theorem Param.isWritable_toJson (p : Param) : p.toJson.isWritable := by
  simp [Param.toJson, Json.isWritable, Json.areWritableFields, p.ty.isWritable_toJson]

/-- What is written for a program is JSON with the numbers that JSON text has. -/
theorem Program.isWritable_toJson (p : Program) : p.toJson.isWritable := by
  have himports : ∀ i ∈ p.imports, i.toJson.isWritable := fun i _ => by
    have hparams := areWritable_map fun t (_ : t ∈ i.params) => t.isWritable_toJson
    simp [Import.toJson, Json.isWritable, Json.areWritableFields, hparams, Ty.isWritable_toJson]
  have hfunctions : ∀ f ∈ p.functions, f.toJson.isWritable := fun f _ => by
    have hparams := areWritable_map fun q (_ : q ∈ f.params) => q.isWritable_toJson
    simp [Function.toJson, Json.isWritable, Json.areWritableFields, hparams,
      Ty.isWritable_toJson, f.span.isWritable_toJson, Stmt.areWritable_toJson]
  simp [Program.toJson, Json.isWritable, Json.areWritableFields, areWritable_map himports,
    areWritable_map hfunctions]

/-- A program is read back from what is written for it just when its numbers are finite, whatever
nesting is allowed as long as it fits. The numbers of a program that is read are finite. So what is
written for a program that is read, in any spelling, is JSON and read as the same program. -/
theorem Program.ofJson?_toJson_iff (p : Program) :
    (∀ limit, p.toJson.depth ≤ limit →
      (Program.ofJson? limit p.toJson = some p ↔ ∀ x ∈ p.floats, x.isFinite)) ∧
    ∀ j limit, j.isWritable → Program.ofJson? limit j = some p →
      p.toJson.isWritable ∧
      ∀ limit', p.toJson.depth ≤ limit' → Program.ofJson? limit' p.toJson = some p := by
  constructor
  · intro limit hlimit
    exact ⟨Program.isFinite_of_ofJson? p.isWritable_toJson, Program.ofJson?_toJson hlimit⟩
  · intro j limit hj h
    refine ⟨p.isWritable_toJson, fun limit' hlimit' => ?_⟩
    exact Program.ofJson?_toJson hlimit' (Program.isFinite_of_ofJson? hj h)

/-- A function that declares `x`, leaves a loop and returns a number, and an import. -/
def looping : Program where
  imports := [⟨"log", [], .void⟩]
  functions := [{
    name := "f", params := [⟨"n", .i32⟩], result := .f64, bodySpan := .empty
    body := [
      .varDecl .empty .letVar [⟨⟨.empty, "x"⟩, none, none⟩],
      .whileStmt ⟨3, 9, 1⟩ (.name .empty "n") (some (.breakStmt .empty)),
      .forStmt .empty none none none none,
      .returnStmt .empty (some (.literal .empty (.float (Binary.ofInt 3))))]
    isExported := false, span := .empty }]

/-- The program as it is not written: the import, the function, a statement and a span are arrays,
names of types and a statement without content are objects, spans and other fields are missing or
null, and a field has no meaning. -/
def loopingSpelled : Json :=
  .object [("version", .int (-1)),
    ("functions", .array [.array [.string "f",
      .array [.object [("ty", .object [("i32", .null)]), ("name", .string "n")]],
      .string "f64",
      .object [("value", .object [("stmts", .array [
        .object [("value", .object [("VarDecl", .object [("kind", .object [("let", .null)]),
          ("declarations", .array [.object [("init", .null),
            ("name", .object [("value", .string "x")])]])])])],
        .array [.array [.int 3, .int 9, .int 1],
          .object [("While", .object [("condition", .object [("value",
              .object [("Ident", .string "n")])]),
            ("body", .object [("value", .object [("Break", .null)])])])]],
        .object [("value", .object [("For", .object [("body", .null)])])],
        .object [("value", .object [("Return", .object [("value",
          .object [("Literal", .object [("Float", .int 3)])])])])]])])]]]),
    ("imports", .array [.array [.string "log", .array [], .object [("void", .null)]]])]

theorem looping_reread :
    loopingSpelled.isWritable ∧ Program.ofJson? 20 loopingSpelled = some looping ∧
      looping.toJson.depth ≤ 20 ∧ Program.ofJson? 20 looping.toJson = some looping :=
  have hwritable : loopingSpelled.isWritable := by decide
  have hread : Program.ofJson? 20 loopingSpelled = some looping := rfl
  have hdepth : looping.toJson.depth ≤ 20 := by decide +kernel
  ⟨hwritable, hread, hdepth,
    ((Program.ofJson?_toJson_iff looping).2 loopingSpelled 20 hwritable hread).2 20 hdepth⟩

end Source

end Weir
