import CanonicalQuery.Typed.Mismatch

/-!
# Records and alternatives

How the typed form of a record and of one of several alternatives is taken apart.

A record is an object that has its members, in any order and among others, or an array of its
members in the order of their declaration.  An alternative is an object with one key; without
content it may also be its bare name.

A typed form may come as a value or as a text.  A text limits how deep brackets nest and lets the
members of an alternative stand in an array; a member with meaning may not be repeated in it.

## Main definitions

- `Dialect`: what is allowed where a form comes from; `Dialect.value` and `Dialect.text`.
- `Dialect.enter`: what is left behind one more bracket.
- `part?`, `membersOnce`: looking members up.
- `readText`, `readFlag`, `readName`: the parts that hold no others.
-/

namespace CanonicalQuery.Typed

open CanonicalQuery.Json

/-- The members of an object in a form. -/
abbrev Members := List (Option String × Form)

/-! ## §1 Dialects -/

/-- What is allowed in a typed form. -/
structure Dialect where
  /-- Whether the members of an alternative may stand in an array. -/
  positional : Bool
  /-- How many more brackets may be opened, if there is a limit. -/
  room : Option Nat
  deriving DecidableEq, Repr

namespace Dialect

/-- Forms that come as values. -/
def value : Dialect := ⟨false, none⟩

/-- Forms that come as texts. -/
def text : Dialect := ⟨true, some 127⟩

/-- What is allowed behind one more bracket. -/
def enter (d : Dialect) : Except Mismatch Dialect :=
  match d.room with
  | none => .ok d
  | some 0 => .error .tooDeep
  | some (room + 1) => .ok { d with room := some room }

end Dialect

/-! ## §2 Members -/

/-- The first member with a given name. -/
def part? (name : String) : Members → Option Form
  | [] => none
  | (key, f) :: rest => if key = some name then some f else part? name rest

/-- Every key has a value, and none of the given names is repeated. -/
def membersOnce (names : List String) (members : Members) : Except Mismatch Unit :=
  if members.any fun (key, _) => key.isNone then .error .unreadable
  else
    match names.find? fun name => 1 < members.countP fun (key, _) => key = some name with
    | some name => .error (.repeated name)
    | none => .ok ()

/-- Read a member if it is there. -/
def ifPresent {α : Type} : Option (Except Mismatch α) → Except Mismatch (Option α)
  | none => .ok none
  | some (.ok a) => .ok (some a)
  | some (.error e) => .error e

/-- A member that has to be there. -/
def needed {α : Type} (name : String) : Option α → Except Mismatch α
  | some a => .ok a
  | none => .error (.missing name)

/-! ## §3 Simple parts -/

/-- A string. -/
def readText : Form → Except Mismatch String
  | .string (some s) => .ok s
  | f => .error (.of f .text)

/-- A boolean. -/
def readFlag : Form → Except Mismatch Bool
  | .bool b => .ok b
  | f => .error (.of f .boolean)

/-- Something that may be missing, for which null stands. -/
def readOptional {α : Type} (read : Form → Except Mismatch α) : Form → Except Mismatch (Option α)
  | .null => .ok none
  | f => return some (← read f)

/-- A name that is none of the alternatives, or one that lacks its content. -/
def badName (known : List String) (lacking : Expected) (name : String) : Mismatch :=
  if name ∈ known then .wrong .bareName lacking else .unknownName name known

/-- A form that gives no alternative together with its content. -/
def badChoice (known : List String) (lacking : String → Expected) : Form → Mismatch
  | .string (some name) => badName known (lacking name) name
  | .object [(some name, _)] => .unknownName name known
  | .object [(none, _)] => .unreadable
  | .object _ => .notOneKey
  | f => .of f .choice

/-- One of several alternatives without content: its name, or an object from its name to null. -/
def readName {α : Type} (alternatives : List (String × α)) (d : Dialect) (f : Form) :
    Except Mismatch α :=
  let known := alternatives.map Prod.fst
  match f with
  | .string (some name) =>
    match alternatives.lookup name with
    | some a => .ok a
    | none => .error (.unknownName name known)
  | .object [(some name, content)] => do
    let _ ← d.enter
    match alternatives.lookup name, content with
    | some a, .null => .ok a
    | some _, content => .error (.of content .nothing)
    | none, _ => .error (.unknownName name known)
  | f => .error (badChoice known (fun _ => .content) f)

end CanonicalQuery.Typed
