import Weir.Proofs.Decoding
import Weir.Proofs.FiniteRounding

/-!
# Numbers in JSON

JSON text has integers of at most 64 bits and finite doubles. A decoder for doubles takes integers
as well and rounds them, and what it reads is finite: whatever a decoder makes of the values of an
array, a field or a tag, it makes of values that have no other numbers.

## Key results

- `Json.isWritable`: JSON values with the numbers that JSON text has
- `Decoder.Yields`: what holds of all that a decoder reads
-/

namespace Weir

/-! ## JSON values -/

namespace Json

mutual

/-- Whether JSON text can have the numbers in a value: integers of at most 64 bits, with or without
a sign, and finite doubles. -/
def isWritable : Json → Bool
  | .int n => -2 ^ 63 ≤ n ∧ n < 2 ^ 64
  | .float x => x.isFinite
  | .array items => areWritable items
  | .object fields => areWritableFields fields
  | .null | .bool _ | .string _ | .unreadable => true
termination_by structural j => j

/-- Whether JSON text can have the numbers in the items of an array. -/
def areWritable : List Json → Bool
  | [] => true
  | j :: js => j.isWritable && areWritable js
termination_by structural js => js

/-- Whether JSON text can have the numbers in the fields of an object. -/
def areWritableFields : List (String × Json) → Bool
  | [] => true
  | (_, j) :: fields => j.isWritable && areWritableFields fields
termination_by structural fields => fields

end

/-- An array is writable if each of its items is. -/
theorem isWritable_array {items : List Json} :
    (Json.array items).isWritable ↔ ∀ j ∈ items, j.isWritable := by
  rw [isWritable]
  induction items with
  | nil => simp [areWritable]
  | cons j items ih => rw [areWritable, Bool.and_eq_true, List.forall_mem_cons, ih]

/-- An object is writable if the value of each of its fields is. -/
theorem isWritable_object {fields : List (String × Json)} :
    (Json.object fields).isWritable ↔ ∀ f ∈ fields, f.2.isWritable := by
  rw [isWritable]
  induction fields with
  | nil => simp [areWritableFields]
  | cons f fields ih => rw [areWritableFields, Bool.and_eq_true, List.forall_mem_cons, ih]

end Json

/-! ## What decoders read -/

/-- Each result of a reader that is run on all items of a list is its result on one of them. -/
theorem exists_of_mem_mapM {α β : Type} {f : α → Option β} {as : List α} {bs : List β} {b : β}
    (h : as.mapM f = some bs) (hb : b ∈ bs) : ∃ a ∈ as, f a = some b := by
  induction as generalizing bs with
  | nil =>
    cases h
    cases hb
  | cons a as ih =>
    simp only [List.mapM_cons, Option.bind_eq_bind, Option.bind_eq_some_iff, Option.pure_def,
      Option.some.injEq] at h
    obtain ⟨c, hc, cs, hcs, rfl⟩ := h
    rcases List.mem_cons.1 hb with rfl | hb
    · exact ⟨a, List.mem_cons_self, hc⟩
    · obtain ⟨a', ha', hread⟩ := ih hcs hb
      exact ⟨a', List.mem_cons_of_mem _ ha', hread⟩

namespace Decoder

variable {α : Type}

/-- What the decoder reads out of JSON with the numbers that JSON text has has the property. -/
def Yields (d : Decoder α) (P : α → Prop) : Prop :=
  ∀ n j a, j.isWritable → d n j = some a → P a

variable {d : Decoder α} {P : α → Prop}

/-- The doubles that are read from a writable text are finite, because an integer of 64 bits is far
    from overflow. -/
theorem yields_double : double.Yields fun x => x.isFinite := by
  intro n j x hj h
  cases j with
  | int i =>
    obtain rfl := Option.some.inj h
    rw [Json.isWritable, decide_eq_true_eq] at hj
    exact Binary.isFinite_ofInt (by omega) hj.2
  | float y =>
    obtain rfl := Option.some.inj h
    exact hj
  | _ => cases h

/-- What may be absent is read as something that has the property, or as nothing. -/
theorem yields_nullable (hd : d.Yields P) : (nullable d).Yields fun o => ∀ a ∈ o, P a := by
  intro n j o hj h a ha
  unfold nullable at h
  split at h
  · cases h
    cases ha
  · obtain ⟨b, hb, rfl⟩ := Option.map_eq_some_iff.1 h
    obtain rfl := Option.mem_some_iff.1 ha
    exact hd _ _ _ hj hb

/-- Each element of a list is read with the property that the reader of elements ensures. -/
theorem yields_list (hd : d.Yields P) : (list d).Yields fun as => ∀ a ∈ as, P a := by
  intro n j as hj h a ha
  unfold list at h
  split at h
  · obtain ⟨item, hitem, hread⟩ := exists_of_mem_mapM h ha
    exact hd _ _ _ (Json.isWritable_array.1 hj item hitem) hread
  · cases h

/-- The content of a tagged value is a part of the text that it stands in. -/
theorem isWritable_of_tagged? {n m : Nat} {j content : Json} {tag : String} (hj : j.isWritable)
    (h : tagged? n j = some (tag, some (m, content))) : content.isWritable := by
  unfold tagged? at h
  split at h
  · cases h
  · cases h
    exact Json.isWritable_object.1 hj _ (List.mem_singleton_self _)
  · cases h

/-- The values of the fields are JSON with the numbers that JSON text has. -/
def Fields.IsWritable (r : Fields) : Prop := ∀ name j, r.get name = some j → j.isWritable

/-- The fields of a record are parts of the text that it is read from. -/
theorem isWritable_of_fields? {names : List String} {n : Nat} {j : Json} {r : Fields}
    (hj : j.isWritable) (h : fields? names n j = some r) : r.IsWritable := by
  intro name v hv
  rw [Fields.get, Option.join_eq_some_iff] at hv
  obtain ⟨before, after, hvalues, -⟩ := List.lookup_eq_some_iff.1 hv
  -- What is found under a name is an entry of the record, with the value that the name was read
  -- with.
  have hmem : (name, some v) ∈ r.values := by rw [hvalues]; simp
  unfold fields? at h
  split at h
  -- Fields are told by their names in an object, and by their positions in an array.
  · next fields =>
    split at h
    · obtain rfl := Option.some.inj h
      obtain ⟨key, -, hkey⟩ := List.mem_map.1 hmem
      obtain ⟨rfl, hlookup⟩ := Prod.mk.inj hkey
      obtain ⟨l, l', rfl, -⟩ := List.lookup_eq_some_iff.1 hlookup
      exact Json.isWritable_object.1 hj (key, v) (by simp)
    · cases h
  · next items =>
    split at h
    · obtain rfl := Option.some.inj h
      obtain ⟨i, hi, hitem⟩ := List.mem_mapIdx.1 hmem
      exact Json.isWritable_array.1 hj v (List.mem_of_getElem? (Prod.mk.inj hitem).2)
    · cases h
  · cases h

/-- The fields of a record under a tag are such values too. -/
theorem isWritable_of_record {names : List String} {n m : Nat} {j content : Json} {tag : String}
    {r : Fields} (hj : j.isWritable) (htag : tagged? n j = some (tag, some (m, content)))
    (hr : fields? names m content = some r) : r.IsWritable :=
  isWritable_of_fields? (isWritable_of_tagged? hj htag) hr

namespace Fields

variable {r : Fields} {name : String} (hr : r.IsWritable) (hd : d.Yields P)

include hr hd

/-- A field that must be there is read from a part of the text. -/
theorem of_required {a : α} (h : r.required name d = some a) : P a := by
  obtain ⟨j, hj, ha⟩ := Option.bind_eq_some_iff.1 h
  exact hd _ _ _ (hr name j hj) ha

/-- The default of a field needs the property, too. -/
theorem of_orElse {missing a : α} (hmissing : P missing)
    (h : r.orElse name missing d = some a) : P a := by
  unfold orElse at h
  split at h
  · obtain rfl := Option.some.inj h
    exact hmissing
  · next j hj => exact hd _ _ _ (hr name j hj) h

/-- A field that may be missing or null has the property where it is neither. -/
theorem of_nullable {o : Option α} (h : r.nullable name d = some o) : ∀ a ∈ o, P a := by
  unfold Fields.nullable at h
  split at h
  · split at h
    · cases h
    · obtain rfl := Option.some.inj h
      intro a ha
      cases ha
  · next j hj => exact yields_nullable hd _ _ _ (hr name j hj) h

end Fields

end Decoder

end Weir
