import CanonicalQuery.Text.Unprintable

/-!
# Texts shown in quotes

A text is shown between quotes with a backslash before quotes and backslashes, the usual letters for
NUL, tab and line ends, and the code point of every character that does not show.  The shown text
holds no raw line end and no quote that is not escaped, so where it ends is plain to see.

## Main definitions

- `Shown.escape`, `Shown.write`: a character and a text as they are shown.
-/

namespace CanonicalQuery.Text.Shown

/-- A code point in braces, in hexadecimal digits without zeros in front. -/
def codePoint (c : Char) : List Char :=
  ['\\', 'u', '\x7b'] ++ Nat.toDigits 16 c.toNat ++ ['\x7d']

/-- A character as it is shown between quotes. -/
def escape (c : Char) : List Char :=
  if c = '\x00' then ['\\', '0']
  else if c = '\t' then ['\\', 't']
  else if c = '\r' then ['\\', 'r']
  else if c = '\n' then ['\\', 'n']
  else if c = '\\' then ['\\', '\\']
  else if c = '"' then ['\\', '"']
  else if IsUnprintable c then codePoint c
  else [c]

/-- A text as it is shown, quotes included. -/
def write (s : String) : String :=
  "\"" ++ String.ofList (s.toList.flatMap escape) ++ "\""

end CanonicalQuery.Text.Shown
