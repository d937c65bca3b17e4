import Weir.Report

/-!
# Places of diagnostics

A span is cut to the bytes of the source text, and the offsets that come of it are then counted in
characters. A character takes one byte or more, so the offsets lie within a text of single-byte
characters whatever the span is, and within any other text if the span ends there before it is cut.
Where they do not, a place is only found for an offset that is just past the end.

## Key results

- `length_le_utf8ByteSize`, `utf8ByteSize_eq_length_iff`: characters and bytes of a text
- `place?_isSome_iff`: the stretches that have a place
- `clamp_within_text`: which diagnostics are shown at a place
-/

namespace Weir.Report

open Weir.Lowering (Diagnostic)
open Weir.Source (Span)

/-! ## Characters and bytes -/

/-- Every character of the text takes a single byte. -/
def SingleBytes (source : String) : Prop := ∀ c ∈ source.toList, c.utf8Size = 1

/-- The bytes of a text are those of its characters. -/
private theorem utf8ByteSize_cons (c : Char) (cs : List Char) :
    (String.ofList (c :: cs)).utf8ByteSize = c.utf8Size + (String.ofList cs).utf8ByteSize := by
  rw [String.ofList_cons, String.utf8ByteSize_append, String.utf8ByteSize_singleton]

/-- A list of characters takes as many bytes as it has characters, or more. -/
private theorem length_le_ofList (cs : List Char) :
    cs.length ≤ (String.ofList cs).utf8ByteSize ∧
      ((String.ofList cs).utf8ByteSize = cs.length ↔ ∀ c ∈ cs, c.utf8Size = 1) := by
  induction cs with
  | nil => simp
  | cons c cs ih =>
    obtain ⟨hle, hiff⟩ := ih
    have hpos := c.utf8Size_pos
    rw [utf8ByteSize_cons, List.length_cons, List.forall_mem_cons, ← hiff]
    omega

/-- A text has no more characters than bytes. -/
theorem length_le_utf8ByteSize (source : String) : source.length ≤ source.utf8ByteSize := by
  -- The count is made over the list of characters.
  have h := (length_le_ofList source.toList).1
  rwa [String.ofList_toList, String.length_toList] at h

/-- Only a text of single-byte characters has as many bytes as characters. -/
theorem utf8ByteSize_eq_length_iff (source : String) :
    source.utf8ByteSize = source.length ↔ SingleBytes source := by
  have h := (length_le_ofList source.toList).2
  rwa [String.ofList_toList, String.length_toList] at h

/-! ## Offsets -/

variable {source : String}

/-- Cut offsets are in order, and lie within the bytes of the text. -/
private theorem clamp_le (source : String) (span : Span) :
    (clamp source span).1 ≤ (clamp source span).2 ∧
      (clamp source span).2 ≤ source.utf8ByteSize :=
  ⟨Nat.min_le_right _ _, Nat.min_le_right _ _⟩

/-- Cut offsets lie within the characters of the text if each of them takes one byte, and else if
    the span ended there already. -/
theorem clamp_le_length_iff (source : String) (span : Span) :
    (clamp source span).2 ≤ source.length ↔
      SingleBytes source ∨ span.stop.toNat ≤ source.length := by
  have hle := length_le_utf8ByteSize source
  rw [← utf8ByteSize_eq_length_iff]
  show min span.stop.toNat source.utf8ByteSize ≤ source.length ↔ _
  omega

/-- A stretch has a place if it lies within the text, and also if it only passes the end of the text
    by one. -/
theorem place?_isSome_iff {start stop : Nat} (h : start ≤ stop) :
    (place? source start stop).isSome ↔
      stop ≤ source.length ∨ (start ≤ source.length ∧ stop = source.length + 1) := by
  simp only [place?, String.length_toList, Bool.or_eq_true, Bool.and_eq_true, decide_eq_true_eq]
  split <;> simp <;> omega

/-- A span that ends within the text begins at a place in it. -/
private theorem place?_of_le {start stop : Nat} (h : start ≤ stop) (hstop : stop ≤ source.length) :
    place? source start stop = some (Place.first.advance start source.toList) := by
  have hsome := (place?_isSome_iff h).2 (.inl hstop)
  unfold place? at hsome ⊢
  dsimp only at hsome ⊢
  split at hsome
  next => cases hsome
  next hwithin => rw [if_neg hwithin]

/-! ## Diagnostics -/

/-- A diagnostic with a place is shown with its line and column. -/
private theorem located_of_place {file : String} {d : Diagnostic} {p : Place}
    (h : diagnosticPlace? source d = some p) :
    located file source d =
      headline d ++ "\n  " ++ file ++ ":" ++ p.toText ++ ": " ++ d.problem.message ++ "\n" := by
  unfold located
  rw [h]

/-- The offsets of a diagnostic are in order and within the bytes of the text. They are within its
    characters too if these are single bytes, or if the span ends within them; then the line and the
    column of the first one are shown. In all other cases a place is only found for a stretch that
    passes the end of the text by one. -/
theorem clamp_within_text (file source : String) (d : Diagnostic) :
    let start := (clamp source d.span).1
    let stop := (clamp source d.span).2
    (start ≤ stop ∧ stop ≤ source.utf8ByteSize) ∧
    (stop ≤ source.length ↔ SingleBytes source ∨ d.span.stop.toNat ≤ source.length) ∧
    (stop ≤ source.length → located file source d =
      headline d ++ "\n  " ++ file ++ ":" ++ (Place.first.advance start source.toList).toText ++
        ": " ++ d.problem.message ++ "\n") ∧
    ((diagnosticPlace? source d).isSome ↔
      stop ≤ source.length ∨ (start ≤ source.length ∧ stop = source.length + 1)) := by
  intro start stop
  obtain ⟨horder, hbytes⟩ := clamp_le source d.span
  refine ⟨⟨horder, hbytes⟩, clamp_le_length_iff source d.span, fun hstop => ?_, ?_⟩
  -- A stretch within the text has a place to name.
  · exact located_of_place (place?_of_le horder hstop)
  · exact place?_isSome_iff horder

/-- A span past the end of a text of one character that takes two bytes: it is cut to the two bytes,
    and the text has no second character. -/
theorem accented_unplaced :
    let d : Diagnostic := ⟨.missingReturnValue, ⟨50, 90, 0⟩⟩
    clamp "é" d.span = (2, 2) ∧ "é".length = 1 ∧ diagnosticPlace? "é" d = none ∧
      diagnosticPlace? "e" d = some ⟨1, 2⟩ := by
  decide

end Weir.Report
