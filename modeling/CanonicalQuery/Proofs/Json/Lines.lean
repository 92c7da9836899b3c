import CanonicalQuery.Proofs.Json.Members
import CanonicalQuery.Proofs.Json.RoundTrip

/-!
# Values on one line

The text of a value without numbers holds no character below U+0020: there are no blanks, and in
strings such characters are escaped.  So the text stands on a line of its own, and where depth is no
matter the line is read as the value, if its members are in order.

## Main definitions

- `Printable`: a text without characters below U+0020.

## Main statements

- `Value.printable_text`: the text of a value without numbers is printable.
- `Value.numberless_sorted`: sorting brings no number in.
- `Value.ofSymbols_text`: a sorted value is read from its line.
-/

namespace CanonicalQuery.Json

/-! ## §1 Printable texts -/

/-- No character of the text is below U+0020, such as the end of a line. -/
def Printable (text : String) : Prop :=
  ∀ c ∈ text.toList, 0x20 ≤ c.toNat

theorem printable_iff_all (text : String) :
    (text.toList.all fun c => decide (0x20 ≤ c.toNat)) = true ↔ Printable text := by
  simp [Printable]

instance (text : String) : Decidable (Printable text) :=
  decidable_of_decidable_of_iff (printable_iff_all text)

/-- Two texts side by side are printable just if both are. -/
theorem printable_append {s t : String} : Printable (s ++ t) ↔ Printable s ∧ Printable t := by
  simp only [Printable, String.toList_append, List.mem_append, or_imp, forall_and]

/-- Printable texts are printable when they are put together. -/
theorem printable_join {texts : List String} (h : ∀ t ∈ texts, Printable t) :
    Printable (String.join texts) := by
  induction texts with
  -- the empty text holds no character
  | nil => simp [Printable]
  | cons t texts ih =>
    rw [String.join_cons]
    have ht : Printable t := h t List.mem_cons_self
    exact printable_append.mpr ⟨ht, ih fun t' ht' => h t' (List.mem_cons_of_mem _ ht')⟩

/-- A text put together with a separator is printable if its parts and the separator are. -/
theorem printable_intercalate {separator : String} {texts : List String}
    (hs : Printable separator) (h : ∀ t ∈ texts, Printable t) :
    Printable (separator.intercalate texts) := by
  cases texts with
  | nil => simp [Printable]
  | cons t texts =>
    -- behind the first text, each one comes with a separator in front
    rw [intercalate_cons_eq_append]
    refine printable_append.mpr ⟨h t List.mem_cons_self, printable_join fun t' ht' => ?_⟩
    obtain ⟨u, hu, rfl⟩ := List.mem_map.mp ht'
    exact printable_append.mpr ⟨hs, h u (List.mem_cons_of_mem _ hu)⟩

/-- The digits of a code are printable. -/
theorem hexDigit_printable {value : Nat} (h : value < 16) :
    0x20 ≤ (Text.hexDigit value).toNat := by
  revert value
  decide

/-- An escaped character is printable, whatever it is. -/
theorem Quoted.escape_printable (c : Char) : ∀ d ∈ escape c, 0x20 ≤ d.toNat := by
  -- by how the character is written: a letter behind a backslash, its code in hexadecimal, or
  -- itself
  rcases escape_cases c with ⟨letter, -, hletter, hc⟩ | ⟨hcode, hc⟩ | ⟨-, -, hcode, hc⟩
  · have hplain : 0x20 ≤ letter.toNat := by
      unfold simpleEscape? at hletter
      split at hletter <;> first | decide | cases hletter
    rw [hc]
    simp [hplain]
  · -- the two digits of the code, and what stands in front of them
    have hhigh : 0x20 ≤ (Text.hexDigit (c.toNat / 16)).toNat := hexDigit_printable (by omega)
    have hlow : 0x20 ≤ (Text.hexDigit (c.toNat % 16)).toNat := hexDigit_printable (by omega)
    rw [hc]
    simp [hhigh, hlow]
  -- it stands for itself, since it is not below the blank
  · rw [hc]
    simpa using hcode

/-- A string is printable between its quotation marks, whatever it holds. -/
theorem Quoted.printable_write (s : String) : Printable (write s) := by
  intro d hd
  -- a quotation mark, or part of what is written for some character
  have hd' : d = '"' ∨ ∃ c ∈ s.toList, d ∈ escape c := by
    simpa [write, or_comm] using hd
  rcases hd' with rfl | ⟨c, -, hd'⟩
  · decide
  · exact escape_printable c d hd'

namespace Value

mutual

/-- The text of a value without numbers is printable. -/
theorem printable_text : ∀ v : Value, v.Numberless → Printable v.text
  | .null, _ => by decide
  | .bool true, _ => by decide
  | .bool false, _ => by decide
  | .string s, _ => Quoted.printable_write s
  | .array items, h => by
    rw [text, printable_append, printable_append]
    -- brackets and commas are printable, and the texts of the items are by induction
    have hcomma : Printable "," := by decide
    have hitems := printable_intercalate hcomma (printable_itemTexts items h)
    exact ⟨⟨by decide, hitems⟩, by decide⟩
  | .object members, h => by
    rw [text, printable_append, printable_append]
    have hcomma : Printable "," := by decide
    have hmembers := printable_intercalate hcomma (printable_memberTexts members h)
    exact ⟨⟨by decide, hmembers⟩, by decide⟩

theorem printable_itemTexts : ∀ vs : List Value, NumberlessItems vs →
    ∀ t ∈ text.itemTexts vs, Printable t
  | [], _ => by simp [text.itemTexts]
  | v :: vs, ⟨hv, hvs⟩ => by
    rw [text.itemTexts, List.forall_mem_cons]
    exact ⟨printable_text v hv, printable_itemTexts vs hvs⟩

theorem printable_memberTexts : ∀ ms : List (String × Value), NumberlessMembers ms →
    ∀ t ∈ text.memberTexts ms, Printable t
  | [], _ => by simp [text.memberTexts]
  | (key, v) :: ms, ⟨hv, hms⟩ => by
    rw [text.memberTexts, List.forall_mem_cons, printable_append, printable_append]
    exact ⟨⟨⟨Quoted.printable_write key, by decide⟩, printable_text v hv⟩,
      printable_memberTexts ms hms⟩

end

end Value

/-! ## §2 Sorted values without numbers -/

namespace Value

/-- The values of an object hold no numbers just if none of them does. -/
theorem numberlessMembers_iff {ms : List (String × Value)} :
    NumberlessMembers ms ↔ ∀ m ∈ ms, m.2.Numberless := by
  induction ms with
  | nil => simp [NumberlessMembers]
  | cons m ms ih => simp [NumberlessMembers, ih]

mutual

/-- Sorting brings no number in. -/
theorem numberless_sorted : ∀ v : Value, v.Numberless → v.sorted.Numberless
  | .null, _ => trivial
  | .bool _, _ => trivial
  | .string _, _ => trivial
  | .array items, h => numberless_sortedItems items h
  | .object members, h => by
    -- sorting keeps of the members only some, each with its sorted value
    refine numberlessMembers_iff.mpr fun m hm => ?_
    exact numberlessMembers_iff.mp (numberless_sortedMembers members h) m
      (Members.mem_of_mem_ofList hm)

theorem numberless_sortedItems : ∀ vs : List Value, NumberlessItems vs →
    NumberlessItems (sorted.sortedItems vs)
  | [], _ => trivial
  | v :: vs, ⟨hv, hvs⟩ => ⟨numberless_sorted v hv, numberless_sortedItems vs hvs⟩

theorem numberless_sortedMembers : ∀ ms : List (String × Value), NumberlessMembers ms →
    NumberlessMembers (sorted.sortedMembers ms)
  | [], _ => trivial
  | (_, v) :: ms, ⟨hv, hms⟩ => ⟨numberless_sorted v hv, numberless_sortedMembers ms hms⟩

end

/-! ## §3 Reading lines -/

/-- Where depth is no matter, a sorted value is read from its text. -/
theorem ofSymbols_text {v : Value} (h : v.Numberless) (hs : v.Sorted) :
    ofSymbols .unlimited (symbols v.text) = .ok v := by
  -- without a limit, any depth is allowed
  have hany : Demands.unlimited.Allows v.depth := by
    intro limit hlimit
    cases hlimit
  -- the form of a value has no number out of range and no broken string
  have hvalue : v.form.toValue = .ok v.sorted := by
    rw [Form.toValue, Form.value?_form]
  calc ofSymbols .unlimited (symbols v.text)
      = v.form.toValue := by
        rw [ofSymbols, readSymbols_text _ v h, if_pos hany]
        rfl
    _ = .ok v := by rw [hvalue, sorted_eq_self v hs]

end Value

end CanonicalQuery.Json
