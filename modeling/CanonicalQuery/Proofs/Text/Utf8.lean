import CanonicalQuery.Files.Entry
import CanonicalQuery.Json.Text

/-!
# Texts in UTF-8

Cutting the octets of a text into characters gives the characters of the text, and no octet is left
alone.

## Main statements

- `Utf8.symbols_toUTF8`: the symbols of the octets of a text are the symbols of the text.
- `Utf8.text?_toUTF8`, `Utf8.text?_eq_some_iff`: the octets of a text, and no others, are read as
  the text.
- `Json.Value.ofOctets_toUTF8`: a JSON text is read from its octets as it is read from its
  characters.
- `Files.Stream.cases`: a stream breaks off, or holds a text, or holds octets of no text; the lemmas
  beside it say what is read in each case.
-/

namespace CanonicalQuery

namespace Utf8

/-- Behind the octets of other characters, a character is found where its octets start. -/
theorem utf8DecodeChar?_append (front : ByteArray) (c : Char) (cs : List Char) :
    (front ++ (c :: cs).utf8Encode).utf8DecodeChar? front.size = some c := by
  rw [ByteArray.utf8DecodeChar?_eq_utf8DecodeChar?_extract,
    ByteArray.extract_append_eq_right rfl ByteArray.size_append]
  exact List.utf8DecodeChar?_utf8Encode_cons

theorem symbolsAfter_append (front : ByteArray) (cs : List Char) :
    symbolsAfter [] (front ++ cs.utf8Encode) front.size = cs.map some := by
  induction cs generalizing front with
  | nil =>
    rw [symbolsAfter, if_neg (by simp)]
    rfl
  | cons c cs ih =>
    have hsize : (front ++ [c].utf8Encode).size = front.size + c.utf8Size := by
      simp [ByteArray.size_append, List.utf8Encode_singleton]
    have hassoc : front ++ (c :: cs).utf8Encode = front ++ [c].utf8Encode ++ cs.utf8Encode := by
      rw [List.utf8Encode_cons, ByteArray.append_assoc]
    have hlt : front.size < (front ++ (c :: cs).utf8Encode).size := by
      have hpos := c.utf8Size_pos
      rw [hassoc, ByteArray.size_append, hsize]
      omega
    rw [symbolsAfter, if_pos hlt, utf8DecodeChar?_append]
    -- the octets of `c` join those in front, and the rest is read behind them
    calc symbolsAfter [some c] (front ++ (c :: cs).utf8Encode) (front.size + c.utf8Size)
        = some c :: symbolsAfter [] (front ++ (c :: cs).utf8Encode) (front.size + c.utf8Size) :=
          symbolsAfter_eq_append [some c] _ _
      _ = some c :: symbolsAfter [] (front ++ [c].utf8Encode ++ cs.utf8Encode)
            (front ++ [c].utf8Encode).size := by rw [hassoc, hsize]
      _ = some c :: cs.map some := by rw [ih]

/-- The octets of a text hold its characters. -/
theorem symbols_toUTF8 (s : String) : symbols s.toUTF8 = Json.symbols s := by
  have henc : s.toUTF8 = ByteArray.empty ++ s.toList.utf8Encode := by
    simp [String.toUTF8_eq_toByteArray]
  rw [henc]
  exact symbolsAfter_append ByteArray.empty s.toList

/-- The octets of a text encode it. -/
theorem text?_toUTF8 (s : String) : text? s.toUTF8 = some s := by
  have hvalid : s.toUTF8.IsValidUTF8 := s.isValidUTF8
  rw [text?, String.fromUTF8?, dif_pos hvalid]
  rfl

/-- Only the octets of a text encode it. -/
theorem text?_eq_some_iff {octets : ByteArray} {s : String} :
    text? octets = some s ↔ octets = s.toUTF8 := by
  constructor
  · intro h
    rw [text?, String.fromUTF8?] at h
    split at h
    · obtain rfl := Option.some.inj h
      rfl
    · cases h
  · rintro rfl
    exact text?_toUTF8 s

end Utf8

/-- A JSON text is read from its octets as it is read from its characters. -/
theorem Json.Value.ofOctets_toUTF8 (text : String) :
    Json.Value.ofOctets text.toUTF8 = Json.Value.ofText text := by
  rw [Json.Value.ofOctets, Utf8.symbols_toUTF8, Json.Value.ofText]

/-! ## Streams -/

namespace Files.Stream

/-- A stream that ends behind the octets of a text holds this text. -/
theorem text_of_toUTF8 (text : String) : (ended text.toUTF8).text = .ok text := by
  change textOf text.toUTF8 = .ok text
  rw [textOf, Utf8.text?_toUTF8]

/-- Octets of no text hold none, even if they are read to their end. -/
theorem text_of_ne_toUTF8 {octets : ByteArray} (h : ∀ text : String, octets ≠ text.toUTF8) :
    (ended octets).text = .error .notText := by
  change textOf octets = .error .notText
  rw [textOf]
  cases hfound : Utf8.text? octets with
  | some text => exact absurd (Utf8.text?_eq_some_iff.mp hfound) (h text)
  | none => rfl

/-- There is no fourth kind of stream. -/
theorem cases (s : Stream) :
    (∃ octets cause, s = ⟨octets, some cause⟩) ∨ (∃ text : String, s = ended text.toUTF8) ∨
      ∃ octets, s = ended octets ∧ ∀ text : String, octets ≠ text.toUTF8 := by
  obtain ⟨octets, _ | cause⟩ := s
  · by_cases htext : ∃ text : String, octets = text.toUTF8
    · obtain ⟨text, rfl⟩ := htext
      exact .inr (.inl ⟨text, rfl⟩)
    · exact .inr (.inr ⟨octets, rfl, fun text h => htext ⟨text, h⟩⟩)
  · exact .inl ⟨octets, cause, rfl⟩

end Files.Stream

end CanonicalQuery
