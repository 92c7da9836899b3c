import CanonicalQuery.Json.Value

/-!
# Forms: what a JSON text spells

A reader of JSON text keeps more than a value does and knows less.  More: the members of an object
stay in the order of the text, repeated ones included.  Less: an escaped surrogate that has no
partner spells no character, so a string of the text may have no value; in a form such a string is
`none`.

## Main definitions

- `Form`: the form of a JSON text.
- `Form.value?`: the value that a form spells, if every string of it has one.
- `Value.form`: the form that spells a value.

`value?_form` says that the form of a value spells that value.
-/

namespace CanonicalQuery.Json

/-- The form of a JSON text. -/
inductive Form where
  | null
  | bool (value : Bool)
  | number (literal : String)
  /-- A string, `none` if it has no value. -/
  | string (text : Option String)
  | array (items : List Form)
  | object (members : List (Option String × Form))
  deriving Repr, Inhabited

namespace Form

/-- The kind of a form. -/
def kind : Form → Kind
  | .null => .null
  | .bool _ => .boolean
  | .number _ => .number
  | .string _ => .string
  | .array _ => .array
  | .object _ => .object

/-! ## §1 The value of a form -/

/-- The value that a form spells, its members in the order of the form. -/
def value? : Form → Option Value
  | .null => some .null
  | .bool b => some (.bool b)
  | .number n => some (.number n)
  | .string text => text.map .string
  | .array items => (itemValues? items).map .array
  | .object members => (memberValues? members).map .object
where
  /-- The values of the items of an array, if all of them have one. -/
  itemValues? : List Form → Option (List Value)
    | [] => some []
    | f :: fs =>
      match value? f, itemValues? fs with
      | some v, some vs => some (v :: vs)
      | _, _ => none
  /-- The members of an object with their values, if all keys and contents have one. -/
  memberValues? : List (Option String × Form) → Option (List (String × Value))
    | [] => some []
    | (key, f) :: rest =>
      match key, value? f, memberValues? rest with
      | some k, some v, some ms => some ((k, v) :: ms)
      | _, _, _ => none

end Form

/-- The form that spells a value. -/
def Value.form : Value → Form
  | .null => .null
  | .bool b => .bool b
  | .number n => .number n
  | .string s => .string (some s)
  | .array items => .array (itemForms items)
  | .object members => .object (memberForms members)
where
  itemForms : List Value → List Form
    | [] => []
    | v :: vs => form v :: itemForms vs
  memberForms : List (String × Value) → List (Option String × Form)
    | [] => []
    | (k, v) :: rest => (some k, form v) :: memberForms rest

mutual

/-- The form of a value spells that value. -/
theorem Form.value?_form : ∀ v : Value, v.form.value? = some v
  | .null => rfl
  | .bool _ => rfl
  | .number _ => rfl
  | .string _ => rfl
  | .array items => by simp [Value.form, Form.value?, Form.itemValues?_itemForms items]
  | .object members => by simp [Value.form, Form.value?, Form.memberValues?_memberForms members]

theorem Form.itemValues?_itemForms :
    ∀ vs : List Value, Form.value?.itemValues? (Value.form.itemForms vs) = some vs
  | [] => rfl
  | v :: vs => by
    simp [Value.form.itemForms, Form.value?.itemValues?, Form.value?_form v,
      Form.itemValues?_itemForms vs]

theorem Form.memberValues?_memberForms :
    ∀ ms : List (String × Value), Form.value?.memberValues? (Value.form.memberForms ms) = some ms
  | [] => rfl
  | (_, v) :: rest => by
    simp [Value.form.memberForms, Form.value?.memberValues?, Form.value?_form v,
      Form.memberValues?_memberForms rest]

end

end CanonicalQuery.Json
