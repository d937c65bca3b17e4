/-!
# Outlines

An `Outline` is a heading with parts below it. Its text puts every outline between parentheses,
each part on a line of its own, two spaces further in than its heading.
-/

namespace Weir

/-- A heading with parts. -/
inductive Outline where
  | item (heading : String) (parts : List Outline)
  deriving Inhabited

namespace Outline

/-- A line break and the indent of a given level. -/
def lineBreak (level : Nat) : String := "\n" ++ String.ofList (List.replicate (2 * level) ' ')

mutual

/-- The text of an outline whose heading stands at the given level. -/
def render (level : Nat) : Outline → String
  | .item heading parts => "(" ++ heading ++ renderParts (level + 1) parts ++ ")"
termination_by structural o => o

/-- The text of parts, each on a new line at the given level. -/
def renderParts (level : Nat) : List Outline → String
  | [] => ""
  | part :: parts => lineBreak level ++ render level part ++ renderParts level parts
termination_by structural os => os

end

end Outline

end Weir
