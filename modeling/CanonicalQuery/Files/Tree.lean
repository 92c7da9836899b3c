import CanonicalQuery.Files.Entry

/-!
# File trees

A file tree holds files and directories by the names on the way to them from the root.  A path is
followed name by name from the root, or from the working directory if it does not begin with a
slash.

- Every directory on the way to something exists.
- One point stands for the directory itself, two for the one above it.
- Only a directory can be entered; a slash at the end of a path enters what is before it.
- A name has at most 255 octets, and a path at most 4095.

## Main definitions

- `Tree`: a file tree and its working directory.
- `Tree.resolve`: the place where a path ends.
- `Tree.entry`: what stands at a path.
-/

namespace CanonicalQuery.Files

/-- The names on the way from the root. -/
abbrev Place := List String

/-- A file tree. -/
structure Tree where
  /-- The octets of a file, or none for a directory, by its place. -/
  entries : List (Place × Option ByteArray)
  here : Place

/-- The place that a path without points leads to. -/
def placeOf (path : String) : Place :=
  (path.splitOn "/").filter (· ≠ "")

/-- The length of the longest names, in octets. -/
def mostOctetsOfName : Nat := 255

/-- The length of the longest paths, in octets. -/
def mostOctetsOfPath : Nat := 4095

namespace Tree

/-- The octets of the file at a place, if one stands there. -/
def file? (t : Tree) (place : Place) : Option ByteArray :=
  (t.entries.lookup place).join

/-- Whether a directory stands at a place. -/
def isDirectory (t : Tree) (place : Place) : Bool :=
  place.isPrefixOf t.here ||
    t.entries.any fun (p, content) =>
      place.isPrefixOf p && (content.isNone || decide (place ≠ p))

/-- Follow names from a place. -/
def follow (t : Tree) (place : Place) : List String → Except Failure Place
  | [] => .ok place
  | name :: rest =>
    if t.isDirectory place then
      if name = "" ∨ name = "." then follow t place rest
      else if name = ".." then follow t place.dropLast rest
      else if mostOctetsOfName < name.utf8ByteSize then .error .nameTooLong
      else follow t (place ++ [name]) rest
    else if (t.file? place).isSome then .error .notDirectory
    else .error .missing

/-- The place where a path ends.  The length of the path is looked at first. -/
def resolve (t : Tree) (path : String) : Except Failure Place :=
  if path = "" then .error .missing
  else if mostOctetsOfPath < path.utf8ByteSize then .error .nameTooLong
  else
    let names := path.splitOn "/"
    -- in front of a leading slash stands an empty name
    follow t (if names.head? = some "" then [] else t.here) names

/-- What stands at a path. -/
def entry (t : Tree) (path : String) : Entry :=
  match t.resolve path with
  | .error cause => .absent cause
  | .ok place =>
    match t.file? place with
    | some octets => .file octets
    | none => if t.isDirectory place then .directory else .absent .missing

end Tree

end CanonicalQuery.Files
