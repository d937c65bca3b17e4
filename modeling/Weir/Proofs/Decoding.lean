import Mathlib.Data.List.Forall2
import Weir.Json.Decoder

/-!
# Reading JSON values back

A decoder reads a value out of the JSON that stands for it, provided that the JSON may nest as deep
as it does. Records are read out of objects with all of their fields, and tagged values out of
objects with one field, or out of strings.

## Key results

- `Decoder.Reads`: what a decoder reads out of a JSON value
- `reads_record`, `Fields.required_eq`, `Fields.orElse_eq`, `Fields.nullable_eq`: reading records
- `reads_list`, `reads_nullable`: lists, and values that may be missing
-/

namespace Weir

namespace Json

/-- The fields of an object nest less deep than the object. -/
theorem exists_of_depth_object {fields : List (String × Json)} {n : Nat}
    (h : (Json.object fields).depth ≤ n) : ∃ m, n = m + 1 ∧ ∀ f ∈ fields, f.2.depth ≤ m := by
  rw [depth] at h
  obtain ⟨m, rfl⟩ : ∃ m, n = m + 1 := ⟨n - 1, by omega⟩
  refine ⟨m, rfl, ?_⟩
  have hfields : depthOfFields fields ≤ m := by omega
  clear h
  induction fields with
  | nil => intro f hf; cases hf
  | cons f fields ih =>
    rw [depthOfFields] at hfields
    rw [List.forall_mem_cons]
    exact ⟨by omega, ih (by omega)⟩

/-- The items of an array nest less deep than the array. -/
private theorem exists_of_depth_array {items : List Json} {n : Nat}
    (h : (Json.array items).depth ≤ n) :
    ∃ m, n = m + 1 ∧ ∀ j ∈ items, j.depth ≤ m := by
  rw [depth] at h
  obtain ⟨m, rfl⟩ : ∃ m, n = m + 1 := ⟨n - 1, by omega⟩
  refine ⟨m, rfl, ?_⟩
  have hitems : depthOfItems items ≤ m := by omega
  -- The induction needs the bound for the items, and no longer that for the array.
  clear h
  induction items with
  | nil => intro j hj; cases hj
  | cons j items ih =>
    rw [depthOfItems] at hitems
    rw [List.forall_mem_cons]
    exact ⟨by omega, ih (by omega)⟩

end Json

namespace Decoder

variable {α β : Type}

/-- The decoder reads a value out of a JSON value, wherever that may nest deep enough. -/
def Reads (d : Decoder α) (a : α) (j : Json) : Prop :=
  ∀ n, j.depth ≤ n → d n j = some a

/-- A value that is read may be mapped. -/
theorem Reads.map {d : Decoder α} {a : α} {j : Json} (f : α → β) (h : d.Reads a j) :
    Reads (fun n j => (d n j).map f) (f a) j := by
  intro n hn
  show (d n j).map f = _
  rw [h n hn, Option.map_some]

/-! ## Scalars -/

/-- A string is read. -/
theorem reads_string (s : String) : Reads string s (.string s) := fun _ _ => rfl

/-- A truth value is read. -/
theorem reads_bool (b : Bool) : Reads bool b (.bool b) := fun _ _ => rfl

/-- An unsigned number of 64 bits is read. -/
theorem reads_unsigned (x : UInt64) : Reads unsigned x (.int x.toNat) := by
  intro n _
  have hlt : (x.toNat : Int) < UInt64.size := by exact_mod_cast x.toNat_lt_size
  simp only [unsigned]
  rw [if_pos ⟨Int.natCast_nonneg _, hlt⟩, Int.toNat_natCast, UInt64.ofNat_toNat]

/-- A signed number of 64 bits is read. -/
theorem reads_signed (v : BitVec 64) : Reads signed v (.int v.toInt) := by
  intro n _
  simp only [signed, BitVec.ofInt_toInt, if_true]

/-- A floating-point number is read. -/
theorem reads_double (x : Double) : Reads double x (.float x) := fun _ _ => rfl

/-- A bare tag is read by a table that gives it to the value. -/
theorem reads_oneOf {table : List (String × α)} {tag : String} {a : α}
    (h : table.lookup tag = some a) : Reads (oneOf table) a (.string tag) := fun _ _ => h

/-! ## Values that may be missing, and lists -/

/-- Null is read as no value. -/
theorem reads_null (d : Decoder α) : Reads (nullable d) none .null := fun _ _ => rfl

/-- What is not null is read as a value that is there. -/
theorem reads_nullable {d : Decoder α} {a : α} {j : Json} (hj : j ≠ .null) (h : d.Reads a j) :
    Reads (nullable d) (some a) j := by
  intro n hn
  -- Only null is read as no value.
  have hmap : nullable d n j = (d n j).map some := by
    cases j <;> first | rfl | exact absurd rfl hj
  rw [hmap, h n hn, Option.map_some]

/-- The items of an array are read one by one. -/
theorem reads_list {d : Decoder α} {as : List α} {js : List Json}
    (h : List.Forall₂ d.Reads as js) : Reads (list d) as (.array js) := by
  intro n hn
  obtain ⟨n, rfl, hitems⟩ := Json.exists_of_depth_array hn
  show js.mapM (d n) = some as
  clear hn
  induction h with
  | nil => rfl
  | cons hd _ ih =>
    rw [List.forall_mem_cons] at hitems
    rw [List.mapM_cons, hd n hitems.1, ih hitems.2]
    rfl

/-- The values of a list are read out of what each of them is written as. -/
theorem reads_list_map {d : Decoder α} {f : α → Json} {as : List α}
    (h : ∀ a ∈ as, d.Reads a (f a)) : Reads (list d) as (.array (as.map f)) :=
  reads_list (List.forall₂_map_right_iff.2 (List.forall₂_same.2 h))

/-! ## Records -/

/-- The fields of an object, all of them present. -/
def Fields.ofObject (n : Nat) (fields : List (String × Json)) : Fields :=
  ⟨n, false, fields.map fun f => (f.1, some f.2)⟩

/-- A field is found by its key where keys are not repeated. -/
private theorem lookup_of_nodup {fields : List (String × Json)}
    (hnodup : (fields.map Prod.fst).Nodup) {f : String × Json} (hf : f ∈ fields) :
    fields.lookup f.1 = some f.2 := by
  obtain ⟨before, after, rfl⟩ := List.append_of_mem hf
  refine List.lookup_eq_some_iff.2 ⟨before, after, rfl, fun g hg => ?_⟩
  rw [List.map_append, List.nodup_append] at hnodup
  -- A key in front of the field is another one.
  have hne := hnodup.2.2 g.1 (List.mem_map_of_mem hg) f.1 (by simp)
  exact bne_iff_ne.2 hne.symm

/-- An object with just the fields of a record is read as these. -/
private theorem fields?_object {fields : List (String × Json)}
    (hnodup : (fields.map Prod.fst).Nodup)
    (n : Nat) :
    fields? (fields.map Prod.fst) (n + 1) (.object fields) = some (.ofObject n fields) := by
  -- No key is repeated, so none is refused.
  have hcount : ∀ name : String, fields.countP (·.1 = name) ≤ 1 := by
    intro name
    have hle := List.nodup_iff_count.1 hnodup name
    rw [List.count_eq_countP, List.countP_map] at hle
    exact hle
  have hall : (fields.map Prod.fst).all fun name => decide (fields.countP (·.1 = name) ≤ 1) := by
    rw [List.all_eq_true]
    exact fun name _ => decide_eq_true (hcount name)
  have hvalues : (fields.map Prod.fst).map (fun name => (name, fields.lookup name)) =
      fields.map fun f => (f.1, some f.2) := by
    rw [List.map_map]
    exact List.map_congr_left fun f hf => by
      rw [Function.comp_apply, lookup_of_nodup hnodup hf]
  simp only [fields?]
  rw [if_pos hall, hvalues]
  rfl

/-- A record is read out of an object with just its fields, if it is built from these. -/
theorem reads_record {names : List String} {fields : List (String × Json)}
    {build : Fields → Option α} {a : α}
    (h : ∀ n, (∀ f ∈ fields, f.2.depth ≤ n) → build (.ofObject n fields) = some a)
    (hnames : fields.map Prod.fst = names := by rfl) (hnodup : names.Nodup := by decide) :
    Reads (fun n j => do
      let r ← fields? names n j
      build r) a (.object fields) := by
  intro n hn
  obtain ⟨n, rfl, hfields⟩ := Json.exists_of_depth_object hn
  subst hnames
  show (fields? _ _ _).bind build = _
  rw [fields?_object hnodup, Option.bind_some]
  exact h n hfields

namespace Fields

variable {fields : List (String × Json)} {n : Nat} {name : String} {j : Json} {d : Decoder α}
  {a : α}

/-- A field that is read is looked up in the record. -/
private theorem get_ofObject : (ofObject n fields).get name = fields.lookup name := by
  have hmap : (fields.map fun f => (f.1, some f.2)).lookup name =
      (fields.lookup name).map some := by
    induction fields with
    | nil => rfl
    | cons f fields ih =>
      rw [List.map_cons, List.lookup_cons, List.lookup_cons, ih]
      split <;> rfl
  unfold get ofObject
  rw [hmap]
  cases fields.lookup name <;> rfl

/-- A field is no deeper than the record allows. -/
private theorem depth_le_of_lookup (hn : ∀ f ∈ fields, f.2.depth ≤ n)
    (hj : fields.lookup name = some j) : j.depth ≤ n := by
  obtain ⟨before, after, rfl, -⟩ := List.lookup_eq_some_iff.1 hj
  exact hn (name, j) (by simp)

variable (name) (hn : ∀ f ∈ fields, f.2.depth ≤ n) (hj : fields.lookup name = some j)

include hn hj

/-- A field that must be there is read. -/
theorem required_eq (h : d.Reads a j) : (ofObject n fields).required name d = some a := by
  unfold required
  rw [get_ofObject, hj, Option.bind_some]
  exact h n (depth_le_of_lookup hn hj)

/-- A field that may be left out is read where it is there. -/
theorem orElse_eq {missing : α} (h : d.Reads a j) :
    (ofObject n fields).orElse name missing d = some a := by
  unfold orElse
  rw [get_ofObject, hj]
  exact h n (depth_le_of_lookup hn hj)

/-- A field that may be null or left out is read where it is there. -/
theorem nullable_eq {o : Option α} (h : (Decoder.nullable d).Reads o j) :
    (ofObject n fields).nullable name d = some o := by
  unfold Fields.nullable
  rw [get_ofObject, hj]
  exact h n (depth_le_of_lookup hn hj)

end Fields

end Decoder

end Weir
