/-!
# Files

What reading a path can give. The program knows files only as `Files`, a function from paths to
contents. A `FileTree` gives one: the files are held by their places below the root, and
`FileTree.read` follows a path from the working directory name by name, as a Unix kernel does.
-/

namespace Weir.Command

/-- Why a file cannot be read as text. -/
inductive FileFault where
  | missing
  | denied
  | notDirectory
  | directory
  | nameTooLong
  | notText
  deriving DecidableEq, Repr

/-- The message for a fault. -/
def FileFault.message : FileFault → String
  | missing => "No such file or directory (os error 2)"
  | denied => "Permission denied (os error 13)"
  | notDirectory => "Not a directory (os error 20)"
  | directory => "Is a directory (os error 21)"
  | nameTooLong => "File name too long (os error 36)"
  | notText => "stream did not contain valid UTF-8"

/-- The contents of files by their paths. -/
abbrev Files : Type := String → Except FileFault String

/-- The names that lead from the root to a file or a directory. -/
abbrev Place : Type := List String

/-- Text files by their places, and a working directory. The directories are those that hold the
files and the working directory. -/
structure FileTree where
  files : List (Place × String)
  home : Place

namespace FileTree

/-- The most bytes that a name can have. -/
def nameLimit : Nat := 255

/-- The most bytes that a path can have. -/
def pathLimit : Nat := 4095

/-- Whether a place is a directory. -/
def isDirectory (t : FileTree) (place : Place) : Bool :=
  place.isPrefixOf t.home || t.files.any fun (file, _) => place.isPrefixOf file && place != file

/-- The text of the file at a place. -/
def textAt (t : FileTree) (place : Place) : Except FileFault String :=
  match t.files.lookup place with
  | some text => .ok text
  | none => .error (if t.isDirectory place then .directory else .missing)

/-- The place that names lead to from another place. A name can only be looked up in a directory.
The empty name and the dot stay there, two dots lead one step up, and from the root nowhere. -/
def follow (t : FileTree) (place : Place) : List String → Except FileFault Place
  | [] => .ok place
  | name :: names =>
    match t.textAt place with
    | .ok _ => .error .notDirectory
    | .error .directory =>
      if name = "" || name = "." then t.follow place names
      else if name = ".." then t.follow place.dropLast names
      else if name.utf8ByteSize ≤ nameLimit then t.follow (place ++ [name]) names
      else .error .nameTooLong
    | .error fault => .error fault

/-- The names in the rest of a path, after the beginning of the first one in reverse. -/
def namesAfter (start : List Char) : List Char → List String
  | [] => [String.ofList start.reverse]
  | '/' :: cs => String.ofList start.reverse :: namesAfter [] cs
  | c :: cs => namesAfter (c :: start) cs

/-- Reads the file at a path. A path that starts with a slash starts at the root, and a slash at
the end asks for a directory. -/
def read (t : FileTree) (path : String) : Except FileFault String := do
  if path.isEmpty then throw .missing
  if pathLimit < path.utf8ByteSize then throw .nameTooLong
  let start := if path.startsWith "/" then [] else t.home
  t.textAt (← t.follow start (namesAfter [] path.toList))

end FileTree

end Weir.Command
