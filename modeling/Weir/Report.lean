import Weir.Lowering.Error

/-!
# Reports

How a diagnostic is shown to a reader. Without the source text it is one line with the offsets of
its span. With the text it is shown at a `Place`: spans are cut to the number of bytes of the text
by `clamp`, and then counted in characters by `place?`, which finds no place for an offset beyond
the last character.
-/

namespace Weir.Report

open Weir.Lowering (Diagnostic)
open Weir.Source (Span)

/-- A place in a text. Lines and columns are counted from one. -/
structure Place where
  line : Nat
  column : Nat
  deriving DecidableEq, Repr

namespace Place

/-- The place of the first character. -/
def first : Place := ⟨1, 1⟩

/-- The place that is a number of characters further on in the rest of a text. A line break starts
a new line only if something follows it. -/
def advance (p : Place) : Nat → List Char → Place
  | 0, _ | _, [] => p
  | n + 1, '\n' :: c :: cs => advance ⟨p.line + 1, 1⟩ n (c :: cs)
  | n + 1, _ :: cs => advance ⟨p.line, p.column + 1⟩ n cs

/-- The text of a place. -/
def toText (p : Place) : String := toString p.line ++ ":" ++ toString p.column

end Place

/-- The offsets of a span, cut to the number of bytes of the text; a span that runs backwards
becomes the empty one at its end. -/
def clamp (source : String) (span : Span) : Nat × Nat :=
  let stop := min span.stop.toNat source.utf8ByteSize
  (min span.start.toNat stop, stop)

/-- The place of a stretch of characters. There is none if it starts beyond the end of the text, or
if its last character lies beyond it. -/
def place? (source : String) (start stop : Nat) : Option Place :=
  let chars := source.toList
  if start > chars.length || (start < stop && stop - 1 > chars.length) then none
  else some (Place.first.advance start chars)

/-- Where a diagnostic is shown in a source text. -/
def diagnosticPlace? (source : String) (d : Diagnostic) : Option Place :=
  let (start, stop) := clamp source d.span
  place? source start stop

/-- A diagnostic without its source text, as one line. -/
def plain (file : String) (d : Diagnostic) : String :=
  "error[" ++ d.problem.code ++ "]: " ++ file ++ ": " ++ d.message ++ "\n"

/-- The headline of a diagnostic that is shown with its source text. -/
def headline (d : Diagnostic) : String := "[" ++ d.problem.code ++ "] Error: lowering error"

/-- A diagnostic at its place in a source text: the headline, then the place and the message. -/
def located (file source : String) (d : Diagnostic) : String :=
  let place := match diagnosticPlace? source d with
    | some p => p.toText
    | none => "?:?"
  headline d ++ "\n  " ++ file ++ ":" ++ place ++ ": " ++ d.problem.message ++ "\n"

/-- A diagnostic in a file whose text may be at hand. -/
def render (file : String) (source : Option String) (d : Diagnostic) : String :=
  match source with
  | none => plain file d
  | some text => located file text d

end Weir.Report
