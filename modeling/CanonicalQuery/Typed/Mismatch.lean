import CanonicalQuery.Json.Form
import CanonicalQuery.Json.Number
import CanonicalQuery.Text.Shown

/-!
# Mismatches of typed forms

A JSON value that is read as a certain type may not fit.  A mismatch says why; it is always the
first one met when the parts are read in order.

## Main definitions

- `Found`, `Expected`: what stands somewhere and what should stand there.
- `Mismatch`, `Mismatch.message`: the ways in which a value does not fit, and their wording.
-/

namespace CanonicalQuery.Typed

open CanonicalQuery.Json

/-- What was found instead of something else. -/
inductive Found where
  | null
  | boolean (value : Bool)
  | number (literal : String)
  | text (value : String)
  | sequence
  | map
  /-- The name of an alternative without its content. -/
  | bareName
  deriving DecidableEq, Repr

/-- What was expected. -/
inductive Expected where
  | text
  | boolean
  | sequence
  /-- One of several alternatives. -/
  | choice
  /-- A record with a name. -/
  | record (name : String)
  /-- The content of an alternative that has one. -/
  | content
  /-- The members of an alternative that is a record. -/
  | members
  /-- The content of an alternative that has none. -/
  | nothing
  deriving DecidableEq, Repr

/-- Why a value does not fit a type. -/
inductive Mismatch where
  | missing (name : String)
  /-- No alternative has this name. -/
  | unknownName (name : String) (known : List String)
  /-- An object that should name one alternative has no key or several. -/
  | notOneKey
  /-- Something else stands there. -/
  | wrong (found : Found) (expected : Expected)
  /-- An array in place of a record has too few items. -/
  | tooFew (count : Nat) (record : String) (members : Nat)
  /-- An array in place of a record has too many items. -/
  | tooMany (count : Nat)
  | repeated (name : String)
  | unreadable
  | tooDeep
  deriving DecidableEq, Repr

/-- What a form is when something else was expected. -/
def Found.of : Form → Found
  | .null => .null
  | .bool b => .boolean b
  | .number literal => .number literal
  | .string s => .text (s.getD "")
  | .array _ => .sequence
  | .object _ => .map

/-- The mismatch of a form in place of something else. -/
def Mismatch.of (f : Form) (expected : Expected) : Mismatch :=
  match f with
  | .string none => .unreadable
  | f => .wrong (.of f) expected

/-! ## Wording -/

/-- A number, told apart by whether it is a whole number of 64 bits. -/
def numberText (literal : String) : String :=
  let l := Literal.parse literal
  match l.integer? with
  | some n => "integer `" ++ toString n ++ "`"
  | none => "floating point `" ++ l.fractionalText ++ "`"

/-- What was found, in words. -/
def Found.message : Found → String
  | .null => "null"
  | .boolean true => "boolean `true`"
  | .boolean false => "boolean `false`"
  | .number literal => numberText literal
  | .text value => "string " ++ Text.Shown.write value
  | .sequence => "sequence"
  | .map => "map"
  | .bareName => "unit variant"

/-- What was expected, in words. -/
def Expected.message : Expected → String
  | .text => "a string"
  | .boolean => "a boolean"
  | .sequence => "a sequence"
  | .choice => "string or map"
  | .record name => "struct " ++ name
  | .content => "newtype variant"
  | .members => "struct variant"
  | .nothing => "unit"

/-- Two names are joined by a word, more are listed. -/
def namesText (known : List String) : String :=
  let quoted := known.map fun name => "`" ++ name ++ "`"
  match quoted with
  | [a, b] => a ++ " or " ++ b
  | names => "one of " ++ ", ".intercalate names

/-- The wording of a mismatch. -/
def Mismatch.message : Mismatch → String
  | .missing name => "missing field `" ++ name ++ "`"
  | .unknownName name known =>
    "unknown variant `" ++ name ++ "`, expected " ++ namesText known
  | .notOneKey => "invalid value: map, expected map with a single key"
  | .wrong found expected =>
    "invalid type: " ++ found.message ++ ", expected " ++ expected.message
  | .tooFew count record members =>
    "invalid length " ++ toString count ++ ", expected struct " ++ record ++ " with "
      ++ toString members ++ " elements"
  | .tooMany count => "invalid length " ++ toString count ++ ", expected fewer elements in array"
  | .repeated name => "duplicate field `" ++ name ++ "`"
  | .unreadable => "a string holds an escape that spells no character"
  | .tooDeep => "brackets nest too deep"

end CanonicalQuery.Typed
