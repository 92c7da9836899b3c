/-!
# Configuration

How canonical queries are printed: in which format, and whether in color.

## Main definitions

- `OutputFormat`, `OutputFormat.ofName?`: the two formats and their names.
- `Config`: a configuration; its defaults are plain text in color.
-/

namespace CanonicalQuery

/-- How a query is printed. -/
inductive OutputFormat where
  /-- The query alone. -/
  | plain
  /-- A JSON object that holds the query. -/
  | json
  deriving DecidableEq, Repr, Inhabited

namespace OutputFormat

/-- The name of a format. -/
def name : OutputFormat → String
  | plain => "plain"
  | json => "json"

/-- A text with its ASCII capitals made small. -/
def lowered (text : String) : List Char :=
  text.toList.map Char.toLower

/-- The format with a given name.  Case can be ignored, but only that of ASCII letters. -/
def ofName? (text : String) (ignoreCase : Bool) : Option OutputFormat :=
  [plain, json].find? fun f =>
    if ignoreCase then lowered f.name == lowered text else f.name == text

theorem ofName?_name (f : OutputFormat) (ignoreCase : Bool) :
    ofName? f.name ignoreCase = some f := by
  cases f <;> cases ignoreCase <;> decide

end OutputFormat

/-- What a configuration says about output. -/
structure OutputConfig where
  /-- The format of queries, unless the command line asks for another one. -/
  format : OutputFormat := .plain
  /-- Whether output may be colored. -/
  color : Bool := true
  deriving DecidableEq, Repr, Inhabited

/-- A configuration. -/
structure Config where
  output : OutputConfig := {}
  deriving DecidableEq, Repr, Inhabited

/-- The configuration that holds where none is given. -/
def Config.default : Config := {}

end CanonicalQuery
