/-!
# JSON values

A value is null, a boolean, a number, a string, an array or an object.  An object is the list of
its members, and most of this library works with values whose members stand in strictly increasing
order of their keys: such a value is `Sorted`, and `Value.sorted` brings every value into that
form, where the last of several members with one key is kept.

A number is kept as the literal that spells it.

## Main definitions

- `Value`, `Value.kind`: values and the names of their six kinds.
- `Members.insert`, `Members.ofList`: objects as maps sorted by key.
- `Value.sorted`, `Value.Sorted`: the sorted form and the predicate that recognises it.
- `Value.depth`: how deep arrays and objects nest.
-/

namespace CanonicalQuery.Json

/-- A JSON value. -/
inductive Value where
  | null
  | bool (value : Bool)
  /-- A number, as the literal that spells it. -/
  | number (literal : String)
  | string (text : String)
  | array (items : List Value)
  /-- An object, as its members in order. -/
  | object (members : List (String × Value))
  deriving Repr, Inhabited

/-- The six kinds of values. -/
inductive Kind where
  | null
  | boolean
  | number
  | string
  | array
  | object
  deriving DecidableEq, Repr, Inhabited

/-- The name of a kind. -/
def Kind.name : Kind → String
  | .null => "null"
  | .boolean => "boolean"
  | .number => "number"
  | .string => "string"
  | .array => "array"
  | .object => "object"

/-- The kind of a value. -/
def Value.kind : Value → Kind
  | .null => .null
  | .bool _ => .boolean
  | .number _ => .number
  | .string _ => .string
  | .array _ => .array
  | .object _ => .object

/-! ## §1 Objects as sorted maps -/

namespace Members

variable {α : Type}

/-- Put a member into a list sorted by key; a member with the same key is replaced. -/
def insert (key : String) (value : α) : List (String × α) → List (String × α)
  | [] => [(key, value)]
  | (k, v) :: rest =>
    if key < k then (key, value) :: (k, v) :: rest
    else if key = k then (key, value) :: rest
    else (k, v) :: insert key value rest

/-- The map that a list of members describes: sorted by key, the last of equal keys kept. -/
def ofList (members : List (String × α)) : List (String × α) :=
  members.foldl (fun sorted (k, v) => insert k v sorted) []

/-- The value of the first member with a given key. -/
def get? (key : String) : List (String × α) → Option α
  | [] => none
  | (k, v) :: rest => if k = key then some v else get? key rest

/-- The keys of a list of members, in its order. -/
def keys (members : List (String × α)) : List String :=
  members.map Prod.fst

end Members

/-! ## §2 Sorted values -/

namespace Value

/-- The value with the members of every object sorted by key and repeated keys resolved. -/
def sorted : Value → Value
  | .null => .null
  | .bool b => .bool b
  | .number n => .number n
  | .string s => .string s
  | .array items => .array (sortedItems items)
  | .object members => .object (Members.ofList (sortedMembers members))
where
  sortedItems : List Value → List Value
    | [] => []
    | v :: vs => sorted v :: sortedItems vs
  sortedMembers : List (String × Value) → List (String × Value)
    | [] => []
    | (k, v) :: rest => (k, sorted v) :: sortedMembers rest

theorem sortedMembers_eq_map (ms : List (String × Value)) :
    sorted.sortedMembers ms = ms.map fun m => (m.1, m.2.sorted) := by
  induction ms with
  | nil => rfl
  | cons m ms ih => simp [sorted.sortedMembers, ih]

mutual

/-- Every object of the value has its members in strictly increasing order of their keys. -/
def Sorted : Value → Prop
  | .null => True
  | .bool _ => True
  | .number _ => True
  | .string _ => True
  | .array items => SortedItems items
  | .object members => (Members.keys members).Pairwise (· < ·) ∧ SortedMembers members

/-- Every item of an array is sorted. -/
def SortedItems : List Value → Prop
  | [] => True
  | v :: vs => Sorted v ∧ SortedItems vs

/-- Every value of an object is sorted. -/
def SortedMembers : List (String × Value) → Prop
  | [] => True
  | (_, v) :: rest => Sorted v ∧ SortedMembers rest

end

/-! ## §3 Depth -/

/-- The greatest number of arrays and objects around a place of the value, that place's own
brackets counted. -/
def depth : Value → Nat
  | .null => 0
  | .bool _ => 0
  | .number _ => 0
  | .string _ => 0
  | .array items => depthItems items + 1
  | .object members => depthMembers members + 1
where
  depthItems : List Value → Nat
    | [] => 0
    | v :: vs => max (depth v) (depthItems vs)
  depthMembers : List (String × Value) → Nat
    | [] => 0
    | (_, v) :: rest => max (depth v) (depthMembers rest)

end Value

end CanonicalQuery.Json
