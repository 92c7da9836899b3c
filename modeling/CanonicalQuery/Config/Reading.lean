import CanonicalQuery.Config.Basic
import CanonicalQuery.Error
import CanonicalQuery.Toml.Reading

/-!
# Reading configurations

A configuration is read from the `output` entry of a TOML document; all other entries are passed
over, as are the entries of `output` without meaning.

- `output` is a table, or an array of the format and the color in this order.  What is missing has
  its default.  A date or a time counts as a table without entries of meaning.
- `format` is the name of a format, or a table whose only entry has that name and nothing in it.
- `color` is a boolean.

## Main definitions

- `Config.ofEntries?`: the configuration of a table.
- `Config.ofToml`: the configuration of a text.
-/

namespace CanonicalQuery

open CanonicalQuery.Toml

/-- A table or an array with nothing in it. -/
def Toml.Item.IsEmpty : Item → Bool
  | .table _ [] => true
  | .array [] => true
  | _ => false

/-- The format that an entry names. -/
def OutputFormat.ofEntry? (name : String) (content : Item) : Option OutputFormat :=
  if content.IsEmpty then ofName? name false else none

/-- A format. -/
def OutputFormat.ofItem? : Item → Option OutputFormat
  | .string name => ofName? name false
  | .table _ [(name, content)] => ofEntry? name content
  | _ => none

/-- Whether output may be colored. -/
def flagOfItem? : Item → Option Bool
  | .scalar (.boolean b) => some b
  | _ => none

/-- Read an item that may be missing and then has a default. -/
def orDefault {α : Type} (default : α) (read : Item → Option α) : Option Item → Option α
  | none => some default
  | some item => read item

/-- A section on output from its two parts. -/
def OutputConfig.ofParts? (format color : Option Item) : Option OutputConfig := do
  let format ← orDefault .plain OutputFormat.ofItem? format
  let color ← orDefault true flagOfItem? color
  return { format, color }

/-- A section on output. -/
def OutputConfig.ofItem? : Item → Option OutputConfig
  | .table _ entries => ofParts? (Entries.get? "format" entries) (Entries.get? "color" entries)
  | .array items => ofParts? items[0]? items[1]?
  | .elements last earlier =>
    let items := (last :: earlier).reverse.map (Item.table .declared)
    ofParts? items[0]? items[1]?
  | .scalar (.moment _) => some {}
  | _ => none

/-- The configuration of a table. -/
def Config.ofEntries? (entries : Entries) : Option Config := do
  return { output := ← orDefault {} OutputConfig.ofItem? (Entries.get? "output" entries) }

/-- The configuration of a text.  What is said about a text that gives none is left to the reader of
TOML. -/
def Config.ofToml (words : String → String) (text : String) : Except Error Config :=
  match (Entries.ofText? text).bind Config.ofEntries? with
  | some config => .ok config
  | none => .error (.config (words text))

end CanonicalQuery
