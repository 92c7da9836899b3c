/-!
# Octets as characters

A row of octets is cut into the characters that it encodes in UTF-8.  An octet that starts no
well-formed character stands alone and is `none`; the octets after it are looked at afresh.

## Main definitions

- `Utf8.symbols`: the characters and stray octets of a row of octets.
- `Utf8.text?`: the text of a row of octets without stray ones.

`Utf8.symbolsAfter_eq_append` says that what was found before a place does not matter behind it.
-/

namespace CanonicalQuery.Utf8

/-- The characters and stray octets from a given place on, put behind those that were found before,
which come newest first. -/
def symbolsAfter (found : List (Option Char)) (octets : ByteArray) (start : Nat) :
    List (Option Char) :=
  if start < octets.size then
    match octets.utf8DecodeChar? start with
    | some c => symbolsAfter (some c :: found) octets (start + c.utf8Size)
    | none => symbolsAfter (none :: found) octets (start + 1)
  else found.reverse
termination_by octets.size - start
decreasing_by
  · have := Char.utf8Size_pos c; omega
  · omega

/-- The characters and stray octets of a row of octets. -/
def symbols (octets : ByteArray) : List (Option Char) :=
  symbolsAfter [] octets 0

/-- What was found before a place stands in front of what is found behind it. -/
theorem symbolsAfter_eq_append (found : List (Option Char)) (octets : ByteArray) (start : Nat) :
    symbolsAfter found octets start = found.reverse ++ symbolsAfter [] octets start := by
  rw [symbolsAfter.eq_def, symbolsAfter.eq_def []]
  split
  · split
    · next c _ =>
      rw [symbolsAfter_eq_append (some c :: found), symbolsAfter_eq_append [some c]]
      simp
    · rw [symbolsAfter_eq_append (none :: found), symbolsAfter_eq_append [none]]
      simp
  · simp
termination_by octets.size - start
decreasing_by
  · have := Char.utf8Size_pos ‹Char›; omega
  · have := Char.utf8Size_pos ‹Char›; omega
  · omega
  · omega

/-- The text that a row of octets encodes, if it is well formed. -/
def text? (octets : ByteArray) : Option String :=
  String.fromUTF8? octets

end CanonicalQuery.Utf8
