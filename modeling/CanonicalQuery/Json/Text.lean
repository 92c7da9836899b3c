import CanonicalQuery.Json.Automaton
import CanonicalQuery.Text.Utf8

/-!
# JSON text

The compact text of a value, and the readings of texts and of octets.

## Main definitions

- `Value.text`: a value without blanks, its members in the order of the value.
- `Demands.standard`: strict, with at most 127 brackets open at once.
- `Form.ofText`: the form of a text.
- `Value.ofText`, `Value.ofOctets`: the sorted value of a text under the standard demands.
-/

namespace CanonicalQuery.Json

/-! ## §1 Writing -/

/-- A value without blanks. -/
def Value.text : Value → String
  | .null => "null"
  | .bool true => "true"
  | .bool false => "false"
  | .number literal => literal
  | .string s => Quoted.write s
  | .array items => "[" ++ ",".intercalate (itemTexts items) ++ "]"
  | .object members => "\x7b" ++ ",".intercalate (memberTexts members) ++ "\x7d"
where
  itemTexts : List Value → List String
    | [] => []
    | v :: vs => text v :: itemTexts vs
  memberTexts : List (String × Value) → List String
    | [] => []
    | (k, v) :: rest => (Quoted.write k ++ ":" ++ text v) :: memberTexts rest

theorem Value.itemTexts_eq_map (vs : List Value) : Value.text.itemTexts vs = vs.map Value.text := by
  induction vs with
  | nil => rfl
  | cons v vs ih => simp [Value.text.itemTexts, ih]

theorem Value.memberTexts_eq_map (ms : List (String × Value)) :
    Value.text.memberTexts ms = ms.map fun m => Quoted.write m.1 ++ ":" ++ m.2.text := by
  induction ms with
  | nil => rfl
  | cons m ms ih => simp [Value.text.memberTexts, ih]

/-! ## §2 Reading -/

/-- Strict reading with at most 127 brackets open at once. -/
def Demands.standard : Demands := ⟨true, some 127⟩

/-- Reading for the form alone: any depth, and numbers and strings need no value. -/
def Demands.formOnly : Demands := ⟨false, none⟩

/-- Strict reading without a limit of depth. -/
def Demands.unlimited : Demands := ⟨true, none⟩

/-- The symbols of a text are its characters. -/
def symbols (text : String) : List (Option Char) :=
  text.toList.map some

/-- The form of a text. -/
def Form.ofText (d : Demands) (text : String) : Except Failure Form :=
  readSymbols d (symbols text)

/-- The sorted value of a form; a form with a string that has no value is refused. -/
def Form.toValue (f : Form) : Except Failure Value :=
  match f.value? with
  | some v => .ok v.sorted
  | none => .error .refused

/-- The sorted value of a text given symbol by symbol. -/
def Value.ofSymbols (d : Demands) (symbols : List (Option Char)) : Except Failure Value := do
  (← readSymbols d symbols).toValue

/-- The sorted value of a text. -/
def Value.ofText (text : String) : Except Failure Value :=
  Value.ofSymbols .standard (symbols text)

/-- The sorted value of a text in UTF-8. -/
def Value.ofOctets (octets : ByteArray) : Except Failure Value :=
  Value.ofSymbols .standard (Utf8.symbols octets)

end CanonicalQuery.Json
