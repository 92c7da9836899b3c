import CanonicalQuery.Json.Text
import CanonicalQuery.Query.Node
import CanonicalQuery.Typed.Record
import CanonicalQuery.Typed.Writing

/-!
# Reading typed forms

A typed form is read as the type it spells out.  Members of a record are met in increasing order of
their names and the first mismatch is reported; that a member is missing shows only after all that
are present were read, in the order of their declaration.  Members without meaning are passed over.

## Main definitions

- `Typed.term`, `Typed.phrase`, `Typed.range`, `Typed.operator`, `Typed.keyword`,
  `Typed.termModifier`, `Typed.phraseModifier`: the readers of the parts of a tree.
- `Typed.node`, `Typed.fieldValue`: the readers of trees and of the values of fields.
- `Typed.ofValue`, `Typed.ofText`: a reader applied to a value and to a JSON text.
-/

namespace CanonicalQuery.Typed

open CanonicalQuery.Json

/-! ## §1 Modifiers, operators and keywords -/

/-- A modifier that is one of two alternatives over a string. -/
def readTagged {α : Type} (first second : String) (toFirst toSecond : String → α) (d : Dialect) :
    Form → Except Mismatch α
  | .object [(some name, content)] => do
    let _ ← d.enter
    if name = first then return toFirst (← readText content)
    else if name = second then return toSecond (← readText content)
    else .error (.unknownName name [first, second])
  | f => .error (badChoice [first, second] (fun _ => .content) f)

/-- A modifier of a term. -/
def termModifier (d : Dialect) (f : Form) : Except Mismatch TermModifier :=
  readTagged "Similarity" "Boost" .similarity .boost d f

/-- A modifier of a phrase. -/
def phraseModifier (d : Dialect) (f : Form) : Except Mismatch PhraseModifier :=
  readTagged "Boost" "Distance" .boost .distance d f

/-- An operator. -/
def operator (d : Dialect) (f : Form) : Except Mismatch Operator :=
  readName ([.required, .prohibited].map fun o : Operator => (o.alternative, o)) d f

/-- A keyword. -/
def keyword (d : Dialect) (f : Form) : Except Mismatch Keyword :=
  readName ([.and, .or, .not].map fun k : Keyword => (k.alternative, k)) d f

/-! ## §2 Leaves -/

/-- A record of a text and a modifier that may be missing. -/
def readModified {α : Type} (name : String) (modifier : Dialect → Form → Except Mismatch α)
    (d : Dialect) : Form → Except Mismatch (String × Option α)
  | .object members => do
    let d ← d.enter
    membersOnce ["value", "modifier"] members
    let modifier? ←
      ifPresent ((part? "modifier" members).map (readOptional (modifier d)))
    let value? ← ifPresent ((part? "value" members).map readText)
    return (← needed "value" value?, modifier?.join)
  | .array items => do
    let d ← d.enter
    match items with
    | [] => .error (.tooFew 0 name 2)
    | [value] => return (← readText value, none)
    | value :: modifier? :: rest =>
      let value ← readText value
      let modifier? ← readOptional (modifier d) modifier?
      if rest.isEmpty then return (value, modifier?) else .error (.tooMany items.length)
  | f => .error (.of f (.record name))

/-- A term. -/
def term (d : Dialect) (f : Form) : Except Mismatch Term := do
  let (value, modifier) ← readModified "Term" termModifier d f
  return { value, modifier }

/-- A phrase. -/
def phrase (d : Dialect) (f : Form) : Except Mismatch Phrase := do
  let (value, modifier) ← readModified "Phrase" phraseModifier d f
  return { value, modifier }

/-- The ends of a range. -/
def range (d : Dialect) : Form → Except Mismatch Range
  | .object members => do
    let _ ← d.enter
    membersOnce ["from", "to"] members
    let lower? ← ifPresent ((part? "from" members).map readText)
    let upper? ← ifPresent ((part? "to" members).map readText)
    return { lower := ← needed "from" lower?, upper := ← needed "to" upper? }
  | .array items => do
    let _ ← d.enter
    match items with
    | [] => .error (.tooFew 0 "Range" 2)
    | [lower] =>
      let _ ← readText lower
      .error (.tooFew 1 "Range" 2)
    | lower :: upper :: rest =>
      let lower ← readText lower
      let upper ← readText upper
      if rest.isEmpty then return { lower, upper } else .error (.tooMany items.length)
  | f => .error (.of f (.record "Range"))

/-! ## §3 Trees -/

/-- The alternatives of a tree. -/
def nodeNames : List String :=
  ["Term", "Phrase", "Group", "Unary", "Field", "Sequence"]

/-- What follows the name of an alternative of a tree. -/
def nodeContent (name : String) : Expected :=
  if name = "Group" ∨ name = "Unary" ∨ name = "Field" then .members else .content

/-- The alternatives of the value of a field. -/
def fieldValueNames : List String :=
  ["Operand", "Inclusive", "Exclusive"]

/-- The mismatch of an array in place of the members of an alternative, all of whose items fit. -/
def badItems (d : Dialect) (name : String) (count members : Nat) : Mismatch :=
  if ¬ d.positional then .wrong .sequence .members
  else if count < members then .tooFew count name members
  else .tooMany count

mutual

/-- A tree. -/
def node (d : Dialect) : Form → Except Mismatch Node
  | .object [(some "Term", content)] => do
    let d ← d.enter
    return .term (← term d content)
  | .object [(some "Phrase", content)] => do
    let d ← d.enter
    return .phrase (← phrase d content)
  | .object [(some "Group", .object members)] => do
    let d ← (← d.enter).enter
    membersOnce ["inner"] members
    let inner? ← ifPresent (nodeAt d "inner" members)
    return .group (← needed "inner" inner?)
  | .object [(some "Group", .array items)] => do
    let inside ← (← d.enter).enter
    match d.positional, items with
    | true, [inner] => return .group (← node inside inner)
    | _, items => .error (badItems d "Group" items.length 1)
  | .object [(some "Group", content)] => .error (.of content .members)
  | .object [(some "Unary", .object members)] => do
    let d ← (← d.enter).enter
    membersOnce ["operator", "operand"] members
    let operand? ← ifPresent (nodeAt d "operand" members)
    let operator? ← ifPresent ((part? "operator" members).map (operator d))
    let operator ← needed "operator" operator?
    return .unary operator (← needed "operand" operand?)
  | .object [(some "Unary", .array items)] => do
    let inside ← (← d.enter).enter
    match d.positional, items with
    | true, [mark, operand] => return .unary (← operator inside mark) (← node inside operand)
    | _, items => .error (badItems d "Unary" items.length 2)
  | .object [(some "Unary", content)] => .error (.of content .members)
  | .object [(some "Field", .object members)] => do
    let d ← (← d.enter).enter
    membersOnce ["field", "value"] members
    let name? ← ifPresent ((part? "field" members).map readText)
    let value? ← ifPresent (fieldValueAt d "value" members)
    let name ← needed "field" name?
    return .ofField name (← needed "value" value?)
  | .object [(some "Field", .array items)] => do
    let inside ← (← d.enter).enter
    match d.positional, items with
    | true, [name, value] => return .ofField (← readText name) (← fieldValue inside value)
    | _, items => .error (badItems d "Field" items.length 2)
  | .object [(some "Field", content)] => .error (.of content .members)
  | .object [(some "Sequence", .array items)] => do
    let d ← (← d.enter).enter
    return .sequence (← nodes d items)
  | .object [(some "Sequence", content)] => .error (.of content .sequence)
  | f => .error (badChoice nodeNames nodeContent f)

/-- Trees one after the other. -/
def nodes (d : Dialect) : List Form → Except Mismatch (List Node)
  | [] => .ok []
  | f :: rest => do
    let n ← node d f
    let ns ← nodes d rest
    return n :: ns

/-- The tree that is the first member with a given name. -/
def nodeAt (d : Dialect) (name : String) : Members → Option (Except Mismatch Node)
  | [] => none
  | (key, f) :: rest => if key = some name then some (node d f) else nodeAt d name rest

/-- What stands behind the colon of a field. -/
def fieldValue (d : Dialect) : Form → Except Mismatch FieldValue
  | .object [(some "Operand", content)] => do
    let d ← d.enter
    return .operand (← node d content)
  | .object [(some "Inclusive", content)] => do
    let d ← d.enter
    return .range .inclusive (← range d content)
  | .object [(some "Exclusive", content)] => do
    let d ← d.enter
    return .range .exclusive (← range d content)
  | f => .error (badChoice fieldValueNames (fun _ => .content) f)

/-- The value of a field that is the first member with a given name. -/
def fieldValueAt (d : Dialect) (name : String) : Members → Option (Except Mismatch FieldValue)
  | [] => none
  | (key, f) :: rest =>
    if key = some name then some (fieldValue d f) else fieldValueAt d name rest

end

theorem nodeAt_eq_map (d : Dialect) (name : String) (members : Members) :
    nodeAt d name members = (part? name members).map (node d) := by
  induction members with
  | nil => simp [nodeAt, part?]
  | cons m rest ih =>
    obtain ⟨key, f⟩ := m
    by_cases h : key = some name <;> simp [nodeAt, part?, h, ih]

theorem fieldValueAt_eq_map (d : Dialect) (name : String) (members : Members) :
    fieldValueAt d name members = (part? name members).map (fieldValue d) := by
  induction members with
  | nil => simp [fieldValueAt, part?]
  | cons m rest ih =>
    obtain ⟨key, f⟩ := m
    by_cases h : key = some name <;> simp [fieldValueAt, part?, h, ih]

/-! ## §4 Values and texts -/

/-- Apply a reader to a value. -/
def ofValue {α : Type} (read : Dialect → Form → Except Mismatch α) (v : Value) :
    Except Mismatch α :=
  read .value v.form

/-- Apply a reader to a JSON text. -/
def ofText {α : Type} (read : Dialect → Form → Except Mismatch α) (text : String) :
    Except Mismatch α :=
  match Form.ofText .formOnly text with
  | .ok f => read .text f
  | .error _ => .error .unreadable

end CanonicalQuery.Typed
