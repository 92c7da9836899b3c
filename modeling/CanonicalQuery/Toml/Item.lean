import CanonicalQuery.Toml.Scalar

/-!
# Tables

A document of TOML describes a table.  Its entries keep the order in which they were defined.  A
table remembers how it was defined, because that decides what may still be added to it.

- An *inline* table and an array are complete, and nothing reaches into them.
- A *declared* table has a header of its own; only headers of further tables reach into it.
- An *implied* table stands above a declared one; a header may still declare it.
- A *dotted* table is named by a dotted key; further dotted keys of the same section may add to it.
- The *elements* of a key are the tables that were declared for it one after the other; what is
  added goes to the last of them.

## Main definitions

- `Item`, `Entries`: what stands under a key, and the entries of a table.
- `Entries.put?`: add an entry under a dotted key.
- `Entries.declare?`, `Entries.append?`: add the entries of a section, under a header of a table or
  of one more element.
-/

namespace CanonicalQuery.Toml

/-- How a table was defined. -/
inductive Definition where
  | inline
  | declared
  | implied
  | dotted
  deriving DecidableEq, Repr, Inhabited

/-- What stands under a key. -/
inductive Item where
  | scalar (value : Scalar)
  | string (text : String)
  | array (items : List Item)
  | table (definition : Definition) (entries : List (String × Item))
  /-- Tables declared one after the other for the same key, the last one first. -/
  | elements (last : List (String × Item)) (earlier : List (List (String × Item)))
  deriving Repr, Inhabited

namespace Item

/-! ## §1 Deciding equality -/

mutual

/-- Compare two items, part by part. -/
def beq : Item → Item → Bool
  | .scalar a, .scalar b => a == b
  | .string a, .string b => a == b
  | .array as, .array bs => beqItems as bs
  | .table d es, .table d' es' => d == d' && beqEntries es es'
  | .elements last es, .elements last' es' => beqEntries last last' && beqTables es es'
  | _, _ => false

/-- Compare two arrays, item by item. -/
def beqItems : List Item → List Item → Bool
  | [], [] => true
  | a :: as, b :: bs => beq a b && beqItems as bs
  | _, _ => false

/-- Compare two tables, entry by entry. -/
def beqEntries : List (String × Item) → List (String × Item) → Bool
  | [], [] => true
  | (key, a) :: as, (key', b) :: bs => key == key' && beq a b && beqEntries as bs
  | _, _ => false

/-- Compare two arrays of tables, table by table. -/
def beqTables : List (List (String × Item)) → List (List (String × Item)) → Bool
  | [], [] => true
  | a :: as, b :: bs => beqEntries a b && beqTables as bs
  | _, _ => false

end

mutual

/-- The comparison decides equality. -/
theorem beq_iff : ∀ a b : Item, beq a b = true ↔ a = b
  | .scalar _, b => by cases b <;> simp [beq]
  | .string _, b => by cases b <;> simp [beq]
  | .array as, b => by cases b <;> simp [beq, beqItems_iff as]
  | .table _ as, b => by cases b <;> simp [beq, beqEntries_iff as]
  | .elements last as, b => by cases b <;> simp [beq, beqEntries_iff last, beqTables_iff as]

theorem beqItems_iff : ∀ as bs : List Item, beqItems as bs = true ↔ as = bs
  | [], bs => by cases bs <;> simp [beqItems]
  | a :: as, bs => by cases bs <;> simp [beqItems, beq_iff a, beqItems_iff as]

theorem beqEntries_iff : ∀ as bs : List (String × Item), beqEntries as bs = true ↔ as = bs
  | [], bs => by cases bs <;> simp [beqEntries]
  | (_, a) :: as, [] => by simp [beqEntries]
  | (_, a) :: as, (_, b) :: bs => by simp [beqEntries, beq_iff a, beqEntries_iff as]

theorem beqTables_iff : ∀ as bs : List (List (String × Item)), beqTables as bs = true ↔ as = bs
  | [], bs => by cases bs <;> simp [beqTables]
  | a :: as, bs => by cases bs <;> simp [beqTables, beqEntries_iff a, beqTables_iff as]

end

instance : DecidableEq Item := fun a b =>
  decidable_of_iff (beq a b = true) (beq_iff a b)

end Item

/-- The entries of a table. -/
abbrev Entries := List (String × Item)

namespace Entries

/-! ## §2 Entries by key -/

/-- What stands under a key. -/
def get? (key : String) (entries : Entries) : Option Item :=
  entries.lookup key

/-- The entries but those under a key. -/
def erase (key : String) (entries : Entries) : Entries :=
  entries.filter fun (k, _) => k ≠ key

/-- Replace what stands under a key, or add it behind all other entries. -/
def set (key : String) (item : Item) : Entries → Entries
  | [] => [(key, item)]
  | (k, i) :: rest => if k = key then (key, item) :: rest else (k, i) :: set key item rest

/-! ## §3 Dotted keys -/

/-- Add an entry under a dotted key, given as the keys before its last one, and that one.  The key
must be new.  On the way only tables may be entered that are implied, dotted or elements, and the
last of them has to be dotted. -/
def put? : List String → String → Item → Entries → Option Entries
  | [], key, item, entries =>
    if (get? key entries).isNone then some (entries ++ [(key, item)]) else none
  | step :: path, key, item, entries =>
    match get? step entries with
    | none => return set step (.table .dotted (← put? path key item [])) entries
    | some (.table .dotted inner) =>
      return set step (.table .dotted (← put? path key item inner)) entries
    | some (.table .implied inner) =>
      if path.isEmpty then none
      else return set step (.table .implied (← put? path key item inner)) entries
    | some (.elements last earlier) =>
      if path.isEmpty then none
      else return set step (.elements (← put? path key item last) earlier) entries
    | some _ => none

/-! ## §4 Headers -/

/-- Change the table that a path leads to.  Tables that are missing on the way are implied; only
inline tables and other values bar the way. -/
def within? (change : Entries → Option Entries) : List String → Entries → Option Entries
  | [], entries => change entries
  | step :: path, entries =>
    match get? step entries with
    | none => return set step (.table .implied (← within? change path [])) entries
    | some (.table .inline _) => none
    | some (.table definition inner) =>
      return set step (.table definition (← within? change path inner)) entries
    | some (.elements last earlier) =>
      return set step (.elements (← within? change path last) earlier) entries
    | some _ => none

/-- Declare the table under a key and fill it; it has to be new or implied so far.  A declared table
stands behind all other entries. -/
def declare? (fill : Entries → Option Entries) (key : String) (entries : Entries) :
    Option Entries :=
  match get? key entries with
  | none => return entries ++ [(key, .table .declared (← fill []))]
  | some (.table .implied inner) =>
    return erase key entries ++ [(key, .table .declared (← fill inner))]
  | some _ => none

/-- Fill one more element under a key. -/
def append? (fill : Entries → Option Entries) (key : String) (entries : Entries) :
    Option Entries :=
  match get? key entries with
  | none => return entries ++ [(key, .elements (← fill []) [])]
  | some (.elements last earlier) =>
    return set key (.elements (← fill []) (last :: earlier)) entries
  | some _ => none

end Entries

/-! ## §5 Documents -/

/-- A dotted key with its value. -/
structure Assignment where
  path : List String
  key : String
  value : Item
  deriving DecidableEq, Repr, Inhabited

/-- What stands above the assignments of a section. -/
inductive Header where
  | table (path : List String) (key : String)
  | element (path : List String) (key : String)
  deriving DecidableEq, Repr, Inhabited

/-- A header and the assignments below it. -/
structure Section where
  header : Header
  assignments : List Assignment
  deriving DecidableEq, Repr, Inhabited

/-- A document: assignments, and sections with more of them. -/
structure Document where
  top : List Assignment
  sections : List Section
  deriving DecidableEq, Repr, Inhabited

/-- Carry assignments out one after the other. -/
def Entries.assign? (assignments : List Assignment) (entries : Entries) : Option Entries :=
  assignments.foldlM (fun entries a => entries.put? a.path a.key a.value) entries

/-- Add a section to the table of a document. -/
def Section.addTo? (s : Section) (entries : Entries) : Option Entries :=
  let fill := Entries.assign? s.assignments
  match s.header with
  | .table path key => Entries.within? (Entries.declare? fill key) path entries
  | .element path key => Entries.within? (Entries.append? fill key) path entries

/-- The table that a document describes, unless it defines something twice. -/
def Document.entries? (d : Document) : Option Entries := do
  d.sections.foldlM (fun entries s => s.addTo? entries) (← Entries.assign? d.top [])

end CanonicalQuery.Toml
