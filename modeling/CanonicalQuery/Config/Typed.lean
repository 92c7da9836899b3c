import CanonicalQuery.Config.Basic
import CanonicalQuery.Typed.Record

/-!
# The typed form of configurations

A configuration is a record of `output`, which is a record of `format` and `color`.  Every member
may be missing and then has its default.

## Main definitions

- `Config.typed`: the typed form of a configuration.
- `Typed.config`: the reader of configurations.
-/

namespace CanonicalQuery

open CanonicalQuery.Json

/-- The typed form of a configuration. -/
def Config.typed (c : Config) : Value :=
  .object [("output",
    .object [("format", .string c.output.format.name), ("color", .bool c.output.color)])]

namespace Typed

/-- A format. -/
def outputFormat (d : Dialect) (f : Form) : Except Mismatch OutputFormat :=
  readName ([.plain, .json].map fun o : OutputFormat => (o.name, o)) d f

/-- What a configuration says about output. -/
def outputConfig (d : Dialect) : Form → Except Mismatch OutputConfig
  | .object members => do
    let d ← d.enter
    membersOnce ["format", "color"] members
    let color? ← ifPresent ((part? "color" members).map readFlag)
    let format? ← ifPresent ((part? "format" members).map (outputFormat d))
    return { format := format?.getD .plain, color := color?.getD true }
  | .array items => do
    let d ← d.enter
    let format? ← ifPresent (items[0]?.map (outputFormat d))
    let color? ← ifPresent (items[1]?.map readFlag)
    if items.length ≤ 2 then return { format := format?.getD .plain, color := color?.getD true }
    else .error (.tooMany items.length)
  | f => .error (.of f (.record "OutputConfig"))

/-- A configuration. -/
def config (d : Dialect) : Form → Except Mismatch Config
  | .object members => do
    let d ← d.enter
    membersOnce ["output"] members
    let output? ← ifPresent ((part? "output" members).map (outputConfig d))
    return { output := output?.getD {} }
  | .array items => do
    let d ← d.enter
    let output? ← ifPresent (items[0]?.map (outputConfig d))
    if items.length ≤ 1 then return { output := output?.getD {} }
    else .error (.tooMany items.length)
  | f => .error (.of f (.record "Config"))

end Typed

end CanonicalQuery
