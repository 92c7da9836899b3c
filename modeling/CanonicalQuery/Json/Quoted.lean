import CanonicalQuery.Text.Hex

/-!
# String literals

A string is written between quotes with the quote, the backslash and the characters below U+0020
escaped, and nothing else.  Reading accepts every escape of the grammar; `\u` takes the next four
octets, and the escapes of two surrogates that form a pair spell one character.

Reading goes character by character, so that a text that ends early can be told from one that is
refused.  A stray octet, or the escape of a surrogate without partner, spells no character: the
string then has no value.  A strict reading refuses a lone surrogate as soon as it shows, and a
string with a stray octet when it is closed.

## Main definitions

- `Quoted.escape`, `Quoted.write`: how characters and strings are written.
- `Quoted.State`, `Quoted.step`: a reading in progress and how one more character changes it.
-/

namespace CanonicalQuery.Json.Quoted

open CanonicalQuery.Text (hexDigit hexValue?)

/-! ## §1 Writing -/

/-- A character as it stands between quotes. -/
def escape (c : Char) : List Char :=
  if c = '"' then ['\\', '"']
  else if c = '\\' then ['\\', '\\']
  else if c = '\x08' then ['\\', 'b']
  else if c = '\x0c' then ['\\', 'f']
  else if c = '\n' then ['\\', 'n']
  else if c = '\r' then ['\\', 'r']
  else if c = '\t' then ['\\', 't']
  else if c.toNat < 0x20 then
    ['\\', 'u', '0', '0', hexDigit (c.toNat / 16), hexDigit (c.toNat % 16)]
  else [c]

/-- A string as it is written, quotes included. -/
def write (s : String) : String :=
  "\"" ++ String.ofList (s.toList.flatMap escape) ++ "\""

/-! ## §2 Escapes -/

/-- The character behind a backslash that stands for one character. -/
def simpleEscape? : Char → Option Char
  | '"' => some '"'
  | '\\' => some '\\'
  | '/' => some '/'
  | 'b' => some '\x08'
  | 'f' => some '\x0c'
  | 'n' => some '\n'
  | 'r' => some '\r'
  | 't' => some '\t'
  | _ => none

/-- The value of a row of hexadecimal digits, if it holds nothing else. -/
def hexUnit? (digits : List (Option Char)) : Option Nat :=
  digits.foldl (fun n? c? => do return 16 * (← n?) + (← hexValue? (← c?))) (some 0)

/-- The first half of a surrogate pair. -/
def IsLeading (unit : Nat) : Prop :=
  0xD800 ≤ unit ∧ unit ≤ 0xDBFF

/-- The second half of a surrogate pair. -/
def IsTrailing (unit : Nat) : Prop :=
  0xDC00 ≤ unit ∧ unit ≤ 0xDFFF

instance (unit : Nat) : Decidable (IsLeading unit) := inferInstanceAs (Decidable (_ ∧ _))
instance (unit : Nat) : Decidable (IsTrailing unit) := inferInstanceAs (Decidable (_ ∧ _))

/-- The character that a surrogate pair spells. -/
def pairChar (leading trailing : Nat) : Char :=
  Char.ofNat (0x10000 + (leading - 0xD800) * 0x400 + (trailing - 0xDC00))

/-! ## §3 Reading -/

/-- Where in a string a reading stands. -/
inductive Phase where
  /-- Between characters. -/
  | plain
  | escape
  /-- Behind a `\u`, with what came since and the leading surrogate before it, if any. -/
  | hex (digits : List (Option Char)) (leading : Option Nat)
  /-- Behind the escape of a leading surrogate. -/
  | leading (unit : Nat)
  /-- Behind the escape of a leading surrogate and a backslash. -/
  | leadingEscape (unit : Nat)
  deriving DecidableEq, Repr

/-- A reading of a string in progress; `text` has the characters so far, newest first, and is
`none` once the string has no value. -/
structure State where
  phase : Phase
  text : Option (List Char)
  deriving DecidableEq, Repr

/-- The state behind an opening quote. -/
def start : State := ⟨.plain, some []⟩

/-- What one more character does. -/
inductive Progress where
  | more (state : State)
  | closed (text : Option String)
  | refused
  deriving DecidableEq, Repr

/-- A character of the string. -/
def push (text : Option (List Char)) (c : Char) : Progress :=
  .more ⟨.plain, text.map (c :: ·)⟩

/-- A character between characters. -/
def stepPlain (strict : Bool) (text : Option (List Char)) (c : Char) : Progress :=
  if c = '"' then
    match text with
    | some chars => .closed (some (String.ofList chars.reverse))
    | none => if strict then .refused else .closed none
  else if c = '\\' then .more ⟨.escape, text⟩
  else if c.toNat < 0x20 then .refused
  else push text c

/-- A character behind a backslash. -/
def stepEscape (text : Option (List Char)) (c : Char) : Progress :=
  if c = 'u' then .more ⟨.hex [] none, text⟩
  else
    match simpleEscape? c with
    | some d => push text d
    | none => .refused

/-- An escaped unit with no surrogate before it. -/
def unitAlone (strict : Bool) (text : Option (List Char)) (unit : Nat) : Progress :=
  if IsLeading unit then .more ⟨.leading unit, text⟩
  else if IsTrailing unit then if strict then .refused else .more ⟨.plain, none⟩
  else push text (Char.ofNat unit)

/-- An escaped unit, perhaps behind a leading surrogate. -/
def stepUnit (strict : Bool) (text : Option (List Char)) (leading : Option Nat) (unit : Nat) :
    Progress :=
  match leading with
  | none => unitAlone strict text unit
  | some first =>
    if IsTrailing unit then push text (pairChar first unit)
    else if strict then .refused
    -- the first surrogate stays alone, the unit starts afresh
    else unitAlone strict none unit

/-- The octets that a row of characters and stray octets takes. -/
def octets (symbols : List (Option Char)) : Nat :=
  symbols.foldl (fun n c? => n + (c?.map Char.utf8Size).getD 1) 0

/-- What comes behind a `\u`: four octets are taken whatever they are, and then have to be
hexadecimal digits. -/
def stepHex (strict : Bool) (text : Option (List Char)) (digits : List (Option Char))
    (leading : Option Nat) (c? : Option Char) : Progress :=
  let taken := digits ++ [c?]
  if octets taken < 4 then .more ⟨.hex taken leading, text⟩
  else
    match hexUnit? taken with
    | some unit => stepUnit strict text leading unit
    | none => .refused

/-- One more character of a string, or a stray octet. -/
def step (strict : Bool) (s : State) (c? : Option Char) : Progress :=
  match s.phase, c? with
  | .hex digits leading, c? => stepHex strict s.text digits leading c?
  | .plain, some c => stepPlain strict s.text c
  | .plain, none => .more ⟨.plain, none⟩
  | .escape, some c => stepEscape s.text c
  | .leading unit, some c =>
    if c = '\\' then .more ⟨.leadingEscape unit, s.text⟩
    else if strict then .refused
    else stepPlain strict none c
  | .leadingEscape unit, some c =>
    if c = 'u' then .more ⟨.hex [] (some unit), s.text⟩
    else if strict then .refused
    else stepEscape none c
  -- no escape holds a stray octet
  | _, none => .refused

end CanonicalQuery.Json.Quoted
