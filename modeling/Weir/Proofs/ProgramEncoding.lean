import Weir.Proofs.Decoding
import Weir.Source.Encoding

/-!
# Reading programs back

What is written as JSON for a program is read as the program again, provided that JSON has all of
its floating-point literals, which is to say that they are finite. The decoders for statements and
expressions count how deep these nest; JSON nests at least as deep, so a limit on the JSON is
enough for them.

## Key results

- `Program.floats`: the floating-point literals in a program
- `Expr.reads`, `Stmt.reads`: an expression, and a statement, are read back
- `Program.ofJson?_toJson`: a program is read back
-/

namespace Weir.Source

open Decoder

/-! ## Floating-point literals -/

/-- The number of a literal that is a floating-point number. -/
def Literal.floats : Literal → List Double
  | .float x => [x]
  | .int _ | .boolean _ => []

mutual

/-- The floating-point literals in an expression. -/
def Expr.floats : Expr → List Double
  | .literal _ value => value.floats
  | .name .. => []
  | .binary _ _ left right => left.floats ++ right.floats
  | .unary _ _ e | .assign _ _ _ e | .cast _ e _ | .paren _ e => e.floats
  | .call _ _ args => Expr.floatsAll args
termination_by structural e => e

/-- The floating-point literals in expressions. -/
def Expr.floatsAll : List Expr → List Double
  | [] => []
  | e :: es => e.floats ++ Expr.floatsAll es
termination_by structural es => es

end

/-- The floating-point literals in an expression that may be missing. -/
def Expr.floatsOption : Option Expr → List Double
  | none => []
  | some e => e.floats

/-- The floating-point literals in a declarator. -/
def Declarator.floats (d : Declarator) : List Double := Expr.floatsOption d.init

mutual

/-- The floating-point literals in a statement. -/
def Stmt.floats : Stmt → List Double
  | .exprStmt _ e => e.floats
  | .varDecl _ _ ds => ds.flatMap Declarator.floats
  | .returnStmt _ value => Expr.floatsOption value
  | .ifStmt _ c t e => c.floats ++ t.floats ++ Stmt.floatsOption e
  | .forStmt _ init c u body =>
    Stmt.floatsOption init ++ Expr.floatsOption c ++ Expr.floatsOption u ++
      Stmt.floatsOption body
  | .whileStmt _ c body => c.floats ++ Stmt.floatsOption body
  | .doWhile _ body c => body.floats ++ c.floats
  | .block _ ss => Stmt.floatsAll ss
  | .breakStmt _ | .continueStmt _ | .empty _ => []
  | .switchStmt _ d cs => d.floats ++ Clause.floatsAll cs
termination_by structural s => s

/-- The floating-point literals in a statement that may be missing. -/
def Stmt.floatsOption : Option Stmt → List Double
  | none => []
  | some s => s.floats
termination_by structural s => s

/-- The floating-point literals in statements. -/
def Stmt.floatsAll : List Stmt → List Double
  | [] => []
  | s :: ss => s.floats ++ Stmt.floatsAll ss
termination_by structural ss => ss

/-- The floating-point literals in clauses. -/
def Clause.floatsAll : List Clause → List Double
  | [] => []
  | .mk test body _ :: cs =>
    Expr.floatsOption test ++ Stmt.floatsAll body ++ Clause.floatsAll cs
termination_by structural cs => cs

end

/-- The floating-point literals in a program. -/
def Program.floats (p : Program) : List Double :=
  p.functions.flatMap fun f => Stmt.floatsAll f.body

/-! ## Tags, spans and names -/

/-- A tagged value is read by its tag, and then its content is. -/
private theorem reads_withTag {α : Type} {d d' : Decoder α} {a : α} {tag : String} {content : Json}
    (h : d'.Reads a content) (hd : ∀ n, d (n + 1) (withTag tag content) = d' n content) :
    d.Reads a (withTag tag content) := by
  intro n hn
  obtain ⟨m, rfl, hm⟩ := Json.exists_of_depth_object hn
  rw [hd]
  exact h m (hm _ (List.mem_singleton_self _))

/-- Every type is read back from its name. -/
private theorem Ty.reads (t : Ty) : Reads Ty.decoder t t.toJson :=
  reads_oneOf (by cases t <;> decide)

private theorem BinaryOp.reads (op : BinaryOp) : Reads BinaryOp.decoder op (.string op.tag) :=
  reads_oneOf (by cases op <;> decide)

private theorem UnaryOp.reads (op : UnaryOp) : Reads UnaryOp.decoder op (.string op.tag) :=
  reads_oneOf (by cases op <;> decide)

private theorem AssignOp.reads (op : AssignOp) : Reads AssignOp.decoder op (.string op.tag) :=
  reads_oneOf (by cases op <;> decide)

private theorem VarKind.reads (kind : VarKind) : Reads VarKind.decoder kind (.string kind.tag) :=
  reads_oneOf (by cases kind <;> decide)

/-- The numbers of a span fit the fields they are written to. -/
private theorem Span.reads (s : Span) : Reads Span.decoder s s.toJson := by
  refine reads_record fun n hn => ?_
  rw [Fields.required_eq "start" hn rfl (reads_unsigned s.start),
    Fields.required_eq "end" hn rfl (reads_unsigned s.stop),
    Fields.required_eq "file_id" hn rfl (reads_unsigned s.fileId)]
  rfl

/-- A value is read with its span, if it can be read knowing the span. -/
private theorem reads_withSpan {α : Type} {d : Span → Decoder α} {span : Span} {a : α}
    {value : Json} (h : (d span).Reads a value) : (spanned d).Reads a (withSpan span value) := by
  refine reads_record fun n hn => ?_
  rw [Fields.orElse_eq "span" hn rfl span.reads]
  exact Fields.required_eq "value" hn rfl h

/-- An identifier is read back with the place it stands at. -/
private theorem Ident.reads (i : Ident) : Reads Ident.decoder i i.toJson :=
  reads_withSpan fun _ _ => rfl

/-! ## Expressions -/

/-- A literal is read back, if JSON has its number. -/
private theorem Literal.reads (v : Literal) (h : ∀ x ∈ v.floats, x.isFinite) :
    Reads Literal.decoder v v.toJson := by
  cases v with
  | int value => exact reads_withTag ((reads_signed value).map Literal.int) fun _ => rfl
  | float x =>
    rw [Literal.toJson, Json.ofDouble, if_pos (h x (List.mem_singleton_self x))]
    exact reads_withTag ((reads_double x).map Literal.float) fun _ => rfl
  | boolean b => exact reads_withTag ((reads_bool b).map Literal.boolean) fun _ => rfl

/-- What stands under a span and a tag nests less deep than the whole. -/
private theorem exists_of_depth_withTag {span : Span} {tag : String} {content : Json} {k : Nat}
    (h : (withSpan span (withTag tag content)).depth ≤ k) :
    ∃ m, k = m + 1 ∧ content.depth < m := by
  simp only [withSpan, withTag, Json.depth, Json.depthOfFields] at h
  exact ⟨k - 1, by omega, by omega⟩

mutual

/-- An expression is read back, if JSON has all of its numbers. -/
theorem Expr.reads (e : Expr) (k : Nat) (hk : e.toJson.depth ≤ k)
    (h : ∀ x ∈ e.floats, x.isFinite) : Reads (Expr.decoder k) e e.toJson := by
  -- In each case the span and the tag take one from the limit, and the parts fit in what is left.
  match e with
  | .literal span v =>
    rw [Expr.toJson] at hk ⊢
    obtain ⟨m, rfl, hm⟩ := exists_of_depth_withTag hk
    exact reads_withSpan (reads_withTag ((v.reads h).map _) fun _ => rfl)
  | .name span x =>
    rw [Expr.toJson] at hk ⊢
    obtain ⟨m, rfl, hm⟩ := exists_of_depth_withTag hk
    exact reads_withSpan (reads_withTag ((reads_string x).map _) fun _ => rfl)
  | .binary span op left right =>
    rw [Expr.toJson] at hk ⊢
    obtain ⟨m, rfl, hm⟩ := exists_of_depth_withTag hk
    simp only [Json.depth, Json.depthOfFields] at hm
    rw [Expr.floats, List.forall_mem_append] at h
    have hleft := left.reads m (by omega) h.1
    have hright := right.reads m (by omega) h.2
    refine reads_withSpan (reads_withTag (reads_record fun n hn => ?_) fun _ => rfl)
    rw [Fields.required_eq "op" hn rfl op.reads, Fields.required_eq "left" hn rfl hleft,
      Fields.required_eq "right" hn rfl hright]
    rfl
  | .unary span op operand =>
    rw [Expr.toJson] at hk ⊢
    obtain ⟨m, rfl, hm⟩ := exists_of_depth_withTag hk
    simp only [Json.depth, Json.depthOfFields] at hm
    have hoperand := operand.reads m (by omega) h
    refine reads_withSpan (reads_withTag (reads_record fun n hn => ?_) fun _ => rfl)
    rw [Fields.required_eq "op" hn rfl op.reads, Fields.required_eq "expr" hn rfl hoperand]
    rfl
  | .assign span op target value =>
    rw [Expr.toJson] at hk ⊢
    obtain ⟨m, rfl, hm⟩ := exists_of_depth_withTag hk
    simp only [Json.depth, Json.depthOfFields] at hm
    have hvalue := value.reads m (by omega) h
    refine reads_withSpan (reads_withTag (reads_record fun n hn => ?_) fun _ => rfl)
    rw [Fields.required_eq "op" hn rfl op.reads, Fields.required_eq "target" hn rfl target.reads,
      Fields.required_eq "value" hn rfl hvalue]
    rfl
  | .call span callee args =>
    rw [Expr.toJson] at hk ⊢
    obtain ⟨m, rfl, hm⟩ := exists_of_depth_withTag hk
    simp only [Json.depth, Json.depthOfFields] at hm
    -- The arguments are read within the same limit as the call.
    have hargs := reads_list (Expr.readsAll args m (by omega) h)
    refine reads_withSpan (reads_withTag (reads_record fun n hn => ?_) fun _ => rfl)
    rw [Fields.required_eq "callee" hn rfl callee.reads, Fields.required_eq "args" hn rfl hargs]
    rfl
  | .cast span operand ty =>
    rw [Expr.toJson] at hk ⊢
    obtain ⟨m, rfl, hm⟩ := exists_of_depth_withTag hk
    simp only [Json.depth, Json.depthOfFields] at hm
    have hoperand := operand.reads m (by omega) h
    refine reads_withSpan (reads_withTag (reads_record fun n hn => ?_) fun _ => rfl)
    rw [Fields.required_eq "expr" hn rfl hoperand, Fields.required_eq "ty" hn rfl ty.reads]
    rfl
  | .paren span inner =>
    rw [Expr.toJson] at hk ⊢
    obtain ⟨m, rfl, hm⟩ := exists_of_depth_withTag hk
    have hinner := inner.reads m (by omega) h
    exact reads_withSpan (reads_withTag (hinner.map _) fun _ => rfl)
termination_by structural e

private theorem Expr.readsAll (es : List Expr) (k : Nat)
    (hk : Json.depthOfItems (exprsToJson es) ≤ k)
    (h : ∀ x ∈ Expr.floatsAll es, x.isFinite) :
    List.Forall₂ (Reads (Expr.decoder k)) es (exprsToJson es) := by
  match es with
  | [] => exact .nil
  | e :: es =>
    rw [exprsToJson, Json.depthOfItems] at hk
    rw [Expr.floatsAll, List.forall_mem_append] at h
    exact .cons (e.reads k (by omega) h.1) (Expr.readsAll es k (by omega) h.2)
termination_by structural es

end

/-- An expression that may be missing is read back, if JSON has all of its numbers. -/
private theorem Expr.readsOption (o : Option Expr) (k : Nat) (hk : (orNull Expr.toJson o).depth ≤ k)
    (h : ∀ x ∈ Expr.floatsOption o, x.isFinite) :
    Reads (nullable (Expr.decoder k)) o (orNull Expr.toJson o) := by
  cases o with
  | none => exact reads_null _
  | some e =>
    -- What is there is not written as null, so it is not taken to be missing.
    refine reads_nullable ?_ (e.reads k hk h)
    cases e <;> simp [Expr.toJson, orNull, withSpan]

/-! ## Statements -/

/-- A type that is left out is written as null, and no type is. -/
private theorem Ty.readsOption (o : Option Ty) : Reads (nullable Ty.decoder) o
    (orNull Ty.toJson o) := by
  cases o with
  | none => exact reads_null _
  | some t => exact reads_nullable (by simp [Ty.toJson, orNull]) t.reads

/-- A declarator is read back, if JSON has all of its numbers. -/
private theorem Declarator.reads (d : Declarator) (k : Nat) (hk : d.toJson.depth ≤ k)
    (h : ∀ x ∈ d.floats, x.isFinite) : Reads (Declarator.decoder k) d d.toJson := by
  rw [Declarator.toJson] at hk
  simp only [Json.depth, Json.depthOfFields] at hk
  have hinit := Expr.readsOption d.init k (by omega) h
  refine reads_record fun n hn => ?_
  rw [Fields.required_eq "name" hn rfl d.ident.reads,
    Fields.orElse_eq "type_annotation" hn rfl (Ty.readsOption d.declared),
    Fields.orElse_eq "init" hn rfl hinit]
  rfl

private theorem Declarator.readsAll (ds : List Declarator) (k : Nat)
    (hk : Json.depthOfItems (ds.map Declarator.toJson) ≤ k)
    (h : ∀ x ∈ ds.flatMap Declarator.floats, x.isFinite) :
    List.Forall₂ (Reads (Declarator.decoder k)) ds (ds.map Declarator.toJson) := by
  induction ds with
  | nil => exact .nil
  | cons d ds ih =>
    -- The limit of the list is that of each element.
    rw [List.map_cons, Json.depthOfItems] at hk
    rw [List.flatMap_cons, List.forall_mem_append] at h
    exact .cons (d.reads k (by omega) h.1) (ih (by omega) h.2)

/-- A block is read back from its statements. -/
private theorem reads_block {d : Decoder Stmt} {ss : List Stmt} {js : List Json}
    (h : List.Forall₂ d.Reads ss js) :
    Reads (stmtsDecoder d) ss (.object [("stmts", .array js)]) :=
  reads_record fun _ hn => Fields.required_eq "stmts" hn rfl (reads_list h)

/-- A statement is written as an object, so null is left for none. -/
private theorem Stmt.toJson_ne_null (s : Stmt) : s.toJson ≠ .null := by
  cases s <;> simp [Stmt.toJson, withSpan]

mutual

/-- A statement is read back, if JSON has all of its numbers. -/
theorem Stmt.reads (s : Stmt) (k : Nat) (hk : s.toJson.depth ≤ k)
    (h : ∀ x ∈ s.floats, x.isFinite) : Reads (Stmt.decoder k) s s.toJson := by
  match s with
  | .exprStmt span e =>
    rw [Stmt.toJson] at hk ⊢
    obtain ⟨m, rfl, hm⟩ := exists_of_depth_withTag hk
    have he := e.reads m (by omega) h
    exact reads_withSpan (reads_withTag (he.map _) fun _ => rfl)
  | .varDecl span kind ds =>
    rw [Stmt.toJson] at hk ⊢
    obtain ⟨m, rfl, hm⟩ := exists_of_depth_withTag hk
    simp only [Json.depth, Json.depthOfFields] at hm
    have hds := reads_list (Declarator.readsAll ds m (by omega) h)
    refine reads_withSpan (reads_withTag (reads_record fun n hn => ?_) fun _ => rfl)
    rw [Fields.required_eq "kind" hn rfl kind.reads,
      Fields.required_eq "declarations" hn rfl hds]
    rfl
  | .returnStmt span value =>
    rw [Stmt.toJson] at hk ⊢
    obtain ⟨m, rfl, hm⟩ := exists_of_depth_withTag hk
    have hvalue := Expr.readsOption value m (by omega) h
    exact reads_withSpan (reads_withTag (hvalue.map _) fun _ => rfl)
  | .ifStmt span c t e =>
    rw [Stmt.toJson] at hk ⊢
    obtain ⟨m, rfl, hm⟩ := exists_of_depth_withTag hk
    simp only [Json.depth, Json.depthOfFields] at hm
    -- Each part needs its own numbers to be finite.
    rw [Stmt.floats, List.forall_mem_append, List.forall_mem_append] at h
    have hc := c.reads m (by omega) h.1.1
    have ht := t.reads m (by omega) h.1.2
    have he := Stmt.readsOption e m (by omega) h.2
    refine reads_withSpan (reads_withTag (reads_record fun n hn => ?_) fun _ => rfl)
    rw [Fields.required_eq "condition" hn rfl hc, Fields.required_eq "then_stmt" hn rfl ht,
      Fields.nullable_eq "else_stmt" hn rfl he]
    rfl
  | .forStmt span init c u body =>
    rw [Stmt.toJson] at hk ⊢
    obtain ⟨m, rfl, hm⟩ := exists_of_depth_withTag hk
    simp only [Json.depth, Json.depthOfFields] at hm
    rw [Stmt.floats, List.forall_mem_append, List.forall_mem_append, List.forall_mem_append] at h
    have hinit := Stmt.readsOption init m (by omega) h.1.1.1
    have hc := Expr.readsOption c m (by omega) h.1.1.2
    have hu := Expr.readsOption u m (by omega) h.1.2
    have hbody := Stmt.readsOption body m (by omega) h.2
    refine reads_withSpan (reads_withTag (reads_record fun n hn => ?_) fun _ => rfl)
    -- All four parts of a loop may be left out.
    rw [Fields.nullable_eq "init" hn rfl hinit, Fields.nullable_eq "condition" hn rfl hc,
      Fields.nullable_eq "update" hn rfl hu, Fields.nullable_eq "body" hn rfl hbody]
    rfl
  | .whileStmt span c body =>
    rw [Stmt.toJson] at hk ⊢
    obtain ⟨m, rfl, hm⟩ := exists_of_depth_withTag hk
    simp only [Json.depth, Json.depthOfFields] at hm
    rw [Stmt.floats, List.forall_mem_append] at h
    have hc := c.reads m (by omega) h.1
    have hbody := Stmt.readsOption body m (by omega) h.2
    refine reads_withSpan (reads_withTag (reads_record fun n hn => ?_) fun _ => rfl)
    rw [Fields.required_eq "condition" hn rfl hc, Fields.nullable_eq "body" hn rfl hbody]
    rfl
  | .doWhile span body c =>
    rw [Stmt.toJson] at hk ⊢
    obtain ⟨m, rfl, hm⟩ := exists_of_depth_withTag hk
    simp only [Json.depth, Json.depthOfFields] at hm
    rw [Stmt.floats, List.forall_mem_append] at h
    have hbody := body.reads m (by omega) h.1
    have hc := c.reads m (by omega) h.2
    refine reads_withSpan (reads_withTag (reads_record fun n hn => ?_) fun _ => rfl)
    rw [Fields.required_eq "body" hn rfl hbody, Fields.required_eq "condition" hn rfl hc]
    rfl
  | .block span ss =>
    rw [Stmt.toJson] at hk ⊢
    obtain ⟨m, rfl, hm⟩ := exists_of_depth_withTag hk
    simp only [Json.depth, Json.depthOfFields] at hm
    have hss := reads_block (Stmt.readsAll ss m (by omega) h)
    exact reads_withSpan (reads_withTag (hss.map _) fun _ => rfl)
  -- A statement without content is written as the tag alone.
  | .breakStmt span =>
    rw [Stmt.toJson] at hk ⊢
    obtain ⟨m, rfl, -⟩ := Json.exists_of_depth_object hk
    exact reads_withSpan fun _ _ => rfl
  | .continueStmt span =>
    rw [Stmt.toJson] at hk ⊢
    obtain ⟨m, rfl, -⟩ := Json.exists_of_depth_object hk
    exact reads_withSpan fun _ _ => rfl
  | .switchStmt span d cs =>
    rw [Stmt.toJson] at hk ⊢
    obtain ⟨m, rfl, hm⟩ := exists_of_depth_withTag hk
    simp only [Json.depth, Json.depthOfFields] at hm
    rw [Stmt.floats, List.forall_mem_append] at h
    have hd := d.reads m (by omega) h.1
    have hcs := reads_list (Clause.readsAll cs m (by omega) h.2)
    refine reads_withSpan (reads_withTag (reads_record fun n hn => ?_) fun _ => rfl)
    rw [Fields.required_eq "discriminant" hn rfl hd, Fields.required_eq "cases" hn rfl hcs]
    rfl
  | .empty span =>
    rw [Stmt.toJson] at hk ⊢
    obtain ⟨m, rfl, -⟩ := Json.exists_of_depth_object hk
    exact reads_withSpan fun _ _ => rfl
termination_by structural s

/-- A statement that may be missing is read back, if JSON has all of its numbers. -/
private theorem Stmt.readsOption (o : Option Stmt) (k : Nat) (hk : (stmtToJson? o).depth ≤ k)
    (h : ∀ x ∈ Stmt.floatsOption o, x.isFinite) :
    Reads (nullable (Stmt.decoder k)) o (stmtToJson? o) := by
  match o with
  | none => exact reads_null _
  | some s => exact reads_nullable s.toJson_ne_null (s.reads k hk h)
termination_by structural o

private theorem Stmt.readsAll (ss : List Stmt) (k : Nat)
    (hk : Json.depthOfItems (stmtsToJson ss) ≤ k)
    (h : ∀ x ∈ Stmt.floatsAll ss, x.isFinite) :
    List.Forall₂ (Reads (Stmt.decoder k)) ss (stmtsToJson ss) := by
  match ss with
  | [] => exact .nil
  | s :: ss =>
    rw [stmtsToJson, Json.depthOfItems] at hk
    rw [Stmt.floatsAll, List.forall_mem_append] at h
    exact .cons (s.reads k (by omega) h.1) (Stmt.readsAll ss k (by omega) h.2)
termination_by structural ss

/-- Clauses are read back one by one. -/
private theorem Clause.readsAll (cs : List Clause) (k : Nat)
    (hk : Json.depthOfItems (clausesToJson cs) ≤ k)
    (h : ∀ x ∈ Clause.floatsAll cs, x.isFinite) :
    List.Forall₂ (Reads (Clause.decoder (Expr.decoder k) (Stmt.decoder k))) cs
      (clausesToJson cs) := by
  match cs with
  | [] => exact .nil
  | .mk test body span :: cs =>
    rw [clausesToJson] at hk
    simp only [Json.depthOfItems, Json.depth, Json.depthOfFields] at hk
    rw [Clause.floatsAll, List.forall_mem_append, List.forall_mem_append] at h
    have htest := Expr.readsOption test k (by omega) h.1.1
    have hbody := reads_list (Stmt.readsAll body k (by omega) h.1.2)
    refine .cons (reads_record fun n hn => ?_) (Clause.readsAll cs k (by omega) h.2)
    -- The fields of a clause have defaults, which a written clause never needs.
    rw [Fields.orElse_eq "test" hn rfl htest, Fields.orElse_eq "consequent" hn rfl hbody,
      Fields.orElse_eq "span" hn rfl span.reads]
    rfl
termination_by structural cs

end

/-! ## Programs -/

/-- A parameter is read back from its two fields. -/
private theorem Param.reads (p : Param) : Reads Param.decoder p p.toJson := by
  refine reads_record fun n hn => ?_
  rw [Fields.required_eq "name" hn rfl (reads_string p.name),
    Fields.required_eq "ty" hn rfl p.ty.reads]
  rfl

/-- An import is read back with the types of its parameters. -/
private theorem Import.reads (i : Import) : Reads Import.decoder i i.toJson := by
  refine reads_record fun n hn => ?_
  -- The field of the parameters may be left out, but is always written.
  rw [Fields.required_eq "name" hn rfl (reads_string i.name),
    Fields.orElse_eq "params" hn rfl (reads_list_map fun t _ => t.reads),
    Fields.required_eq "return_type" hn rfl i.result.reads]
  rfl

/-- A function is read back, if JSON has all of its numbers. -/
private theorem Function.reads (f : Function) (k : Nat) (hk : f.toJson.depth ≤ k)
    (h : ∀ x ∈ Stmt.floatsAll f.body, x.isFinite) : Reads (Function.decoder k) f f.toJson := by
  rw [Function.toJson, withSpan] at hk
  simp only [Json.depth, Json.depthOfFields] at hk
  have hss := reads_block (Stmt.readsAll f.body k (by omega) h)
  have hbody : Reads
      (spanned fun span n j => (stmtsDecoder (Stmt.decoder k) n j).map (span, ·))
      (f.bodySpan, f.body)
      (withSpan f.bodySpan (.object [("stmts", .array (stmtsToJson f.body))])) :=
    reads_withSpan (hss.map _)
  refine reads_record fun n hn => ?_
  dsimp only
  -- The body and its span are read first, and then the fields in the order of the record.
  rw [Fields.required_eq "body" hn rfl hbody,
    Fields.required_eq "name" hn rfl (reads_string f.name),
    Fields.orElse_eq "params" hn rfl (reads_list_map fun p _ => p.reads),
    Fields.required_eq "return_type" hn rfl f.result.reads,
    Fields.orElse_eq "is_export" hn rfl (reads_bool f.isExported),
    Fields.orElse_eq "span" hn rfl f.span.reads]
  rfl

private theorem Function.readsAll (fs : List Function) (k : Nat)
    (hk : Json.depthOfItems (fs.map Function.toJson) ≤ k)
    (h : ∀ x ∈ fs.flatMap fun f => Stmt.floatsAll f.body, x.isFinite) :
    List.Forall₂ (Reads (Function.decoder k)) fs (fs.map Function.toJson) := by
  induction fs with
  | nil => exact .nil
  | cons f fs ih =>
    rw [List.map_cons, Json.depthOfItems] at hk
    rw [List.flatMap_cons, List.forall_mem_append] at h
    exact .cons (f.reads k (by omega) h.1) (ih (by omega) h.2)

/-- A program is read back, if JSON has all of its numbers and may nest deep enough. -/
theorem Program.ofJson?_toJson {p : Program} {limit : Nat} (hlimit : p.toJson.depth ≤ limit)
    (h : ∀ x ∈ p.floats, x.isFinite) : Program.ofJson? limit p.toJson = some p := by
  have hdepth := hlimit
  rw [Program.toJson] at hdepth
  simp only [Json.depth, Json.depthOfFields] at hdepth
  have hfunctions := reads_list (Function.readsAll p.functions limit (by omega) h)
  refine (reads_record fun n hn => ?_ : Reads (Program.decoder limit) p p.toJson) limit hlimit
  rw [Fields.orElse_eq "imports" hn rfl (reads_list_map fun i _ => i.reads),
    Fields.orElse_eq "functions" hn rfl hfunctions]
  rfl

end Weir.Source
