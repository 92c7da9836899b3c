import CanonicalQuery.Json.Value

/-!
# Defects of attribute trees

A query tree may be given as an attribute tree: a JSON value whose objects name the parts of a node
by attributes.  A value that is no attribute tree has a defect.  A defect lies at a path of the
value and is either a shape that no rule handles or an attribute of the wrong form.

## Main definitions

- `Step`, `Path.text`: paths from the root, which is written `$`.
- `Shape`: what is told about a value that no rule handles.
- `Fault`, `Defect`: what is wrong, and where.
- `Defect.below`: the defect of a part, seen from the whole.
-/

namespace CanonicalQuery.Tree

open CanonicalQuery.Json

/-! ## §1 Paths -/

/-- One step from a value to a part of it. -/
inductive Step where
  | index (position : Nat)
  | key (name : String)
  deriving DecidableEq, Repr, Inhabited

/-- The steps from the root of a tree, the first step first. -/
abbrev Path := List Step

/-- A step as it is written: an index in brackets, or a key behind a point. -/
def Step.text : Step → String
  | .index position => "[" ++ toString position ++ "]"
  | .key name => "." ++ name

/-- A path as it is written: `$` and its steps. -/
def Path.text (path : Path) : String :=
  "$" ++ String.join (path.map Step.text)

/-- The part of a value at the end of a path, if the path leads to one. -/
def Path.follow? : Path → Value → Option Value
  | [], v => some v
  | .index position :: rest, .array items => items[position]?.bind (follow? rest)
  | .key name :: rest, .object members => (Members.get? name members).bind (follow? rest)
  | _, _ => none

/-! ## §2 Shapes -/

/-- The outline of a value: its kind, or its keys if it is an object. -/
inductive Shape where
  | kind (found : Kind)
  | keys (names : List String)
  deriving DecidableEq, Repr, Inhabited

/-- The outline of a value. -/
def shape : Value → Shape
  | .object members => .keys (Members.keys members)
  | v => .kind v.kind

/-- An outline as it is written: keys stand in braces with commas between them. -/
def Shape.text : Shape → String
  | .kind k => k.name
  | .keys names => "\x7b" ++ ", ".intercalate names ++ "\x7d"

/-! ## §3 Defects -/

/-- What is wrong with a part of an attribute tree. -/
inductive Fault where
  /-- No rule handles a value of this outline here. -/
  | unhandled (shape : Shape)
  /-- The attribute `name` has to be a string. -/
  | notText (name : String) (found : Kind)
  /-- The operator given by `name` has a symbol that marks nothing. -/
  | unknownSymbol (name symbol : String)
  /-- The operator given by `name` has the symbol of the other operator. -/
  | otherSymbol (name symbol : String)
  deriving DecidableEq, Repr, Inhabited

/-- A fault and the path of the part that has it. -/
structure Defect where
  path : Path
  fault : Fault
  deriving DecidableEq, Repr, Inhabited

/-- A fault at the root. -/
def Defect.here (fault : Fault) : Defect := ⟨[], fault⟩

/-- The defect of a part, one step below the whole. -/
def Defect.below (step : Step) (d : Defect) : Defect :=
  { d with path := step :: d.path }

/-- Read a part that lies one step below. -/
def below {α : Type} (step : Step) (part : Except Defect α) : Except Defect α :=
  part.mapError (Defect.below step)

@[simp] theorem below_ok {α : Type} (step : Step) (a : α) :
    below step (.ok a) = .ok a := rfl

@[simp] theorem below_error {α : Type} (step : Step) (d : Defect) :
    below step (.error d : Except Defect α) = .error (d.below step) := rfl

end CanonicalQuery.Tree
