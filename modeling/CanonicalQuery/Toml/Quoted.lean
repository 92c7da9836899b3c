import CanonicalQuery.Text.Hex

/-!
# String literals of TOML

There are four kinds.  Basic strings stand between quotes and know escapes, literal strings stand
between apostrophes and know none, and either may span several lines when it stands between three
of its marks.

A string of several lines drops a line end right behind the opening marks and writes every other
line end as a line feed; a basic one may end a line with a backslash, which drops the line end and
all blanks behind it.  Up to two marks may stand directly before the three that close it.

## Main definitions

- `IsBlank`, `MayStand`: the characters of blank space, and those that need no escape.
- `Quoted.basic`, `Quoted.literal`, `Quoted.basicLines`, `Quoted.literalLines`: the four bodies,
  each read up to its closing marks.
- `Quoted.read`: a string literal of any kind; `Quoted.readLine`: one within a line.
-/

namespace CanonicalQuery.Toml

/-- Blank space within a line. -/
def IsBlank (c : Char) : Prop :=
  c = ' ' ∨ c = '\t'

instance (c : Char) : Decidable (IsBlank c) := inferInstanceAs (Decidable (_ ∨ _))

/-- The characters of comments and strings: all but controls, of which a tab may stand. -/
def MayStand (c : Char) : Prop :=
  c = '\t' ∨ (0x20 ≤ c.toNat ∧ c.toNat ≠ 0x7f)

instance (c : Char) : Decidable (MayStand c) := inferInstanceAs (Decidable (_ ∨ _))

/-- The text behind a line end, if one comes next: a line feed, or a carriage return and a line
feed. -/
def lineEnd? : List Char → Option (List Char)
  | '\n' :: rest => some rest
  | '\r' :: '\n' :: rest => some rest
  | _ => none

namespace Quoted

/-! ## §1 Escapes -/

/-- The character behind a backslash that stands for one character. -/
def simpleEscape? : Char → Option Char
  | 'b' => some '\x08'
  | 't' => some '\t'
  | 'n' => some '\n'
  | 'f' => some '\x0c'
  | 'r' => some '\r'
  | '"' => some '"'
  | '\\' => some '\\'
  | _ => none

/-- The character with a given code point in hexadecimal digits, if there is one. -/
def codePoint? (digits : List Char) : Option Char := do
  let values ← digits.mapM Text.hexValue?
  let code := values.foldl (16 * · + ·) 0
  if h : code.isValidChar then some (Char.ofNatAux code h) else none

/-- Put a character in front of the text of a string. -/
def push (c : Char) (body : Option (List Char × List Char)) : Option (List Char × List Char) :=
  body.map fun (text, rest) => (c :: text, rest)

/-! ## §2 Strings within a line -/

/-- A basic string behind its quote: its text and what follows the closing quote. -/
def basic : List Char → Option (List Char × List Char)
  | [] => none
  | '"' :: rest => some ([], rest)
  | '\\' :: 'u' :: a :: b :: c :: d :: rest =>
    (codePoint? [a, b, c, d]).bind (push · (basic rest))
  | '\\' :: 'U' :: a :: b :: c :: d :: e :: f :: g :: h :: rest =>
    (codePoint? [a, b, c, d, e, f, g, h]).bind (push · (basic rest))
  | '\\' :: c :: rest => (simpleEscape? c).bind (push · (basic rest))
  | c :: rest => if c ≠ '\\' ∧ MayStand c then push c (basic rest) else none

/-- A literal string behind its apostrophe. -/
def literal : List Char → Option (List Char × List Char)
  | [] => none
  | '\'' :: rest => some ([], rest)
  | c :: rest => if MayStand c then push c (literal rest) else none

/-! ## §3 Strings of several lines -/

/-- Whether only blanks stand before the next line end. -/
def endsLine (s : List Char) : Bool :=
  (lineEnd? (s.dropWhile fun c => IsBlank c)).isSome

/-- A basic string of several lines behind its opening marks.  While `trimming`, blanks and line
ends are dropped. -/
def basicLines (trimming : Bool) : List Char → Option (List Char × List Char)
  | [] => none
  | '"' :: '"' :: '"' :: '"' :: '"' :: rest => some (['"', '"'], rest)
  | '"' :: '"' :: '"' :: '"' :: rest => some (['"'], rest)
  | '"' :: '"' :: '"' :: rest => some ([], rest)
  | '\n' :: rest => if trimming then basicLines true rest else push '\n' (basicLines false rest)
  | '\r' :: '\n' :: rest =>
    if trimming then basicLines true rest else push '\n' (basicLines false rest)
  | '\\' :: 'u' :: a :: b :: c :: d :: rest =>
    (codePoint? [a, b, c, d]).bind (push · (basicLines false rest))
  | '\\' :: 'U' :: a :: b :: c :: d :: e :: f :: g :: h :: rest =>
    (codePoint? [a, b, c, d, e, f, g, h]).bind (push · (basicLines false rest))
  | '\\' :: c :: rest =>
    if endsLine (c :: rest) then basicLines true (c :: rest)
    else (simpleEscape? c).bind (push · (basicLines false rest))
  | c :: rest =>
    if trimming ∧ IsBlank c then basicLines true rest
    else if c ≠ '\\' ∧ MayStand c then push c (basicLines false rest)
    else none

/-- A literal string of several lines behind its opening marks. -/
def literalLines : List Char → Option (List Char × List Char)
  | [] => none
  | '\'' :: '\'' :: '\'' :: '\'' :: '\'' :: rest => some (['\'', '\''], rest)
  | '\'' :: '\'' :: '\'' :: '\'' :: rest => some (['\''], rest)
  | '\'' :: '\'' :: '\'' :: rest => some ([], rest)
  | '\n' :: rest => push '\n' (literalLines rest)
  | '\r' :: '\n' :: rest => push '\n' (literalLines rest)
  | c :: rest => if MayStand c then push c (literalLines rest) else none

/-! ## §4 String literals -/

/-- A string literal within a line. -/
def readLine : List Char → Option (String × List Char)
  | '"' :: rest => (basic rest).map fun (text, rest) => (String.ofList text, rest)
  | '\'' :: rest => (literal rest).map fun (text, rest) => (String.ofList text, rest)
  | _ => none

/-- Drop a line end right behind the opening marks. -/
def openLines (s : List Char) : List Char :=
  (lineEnd? s).getD s

/-- A string literal. -/
def read : List Char → Option (String × List Char)
  | '"' :: '"' :: '"' :: rest =>
    (basicLines false (openLines rest)).map fun (text, rest) => (String.ofList text, rest)
  | '\'' :: '\'' :: '\'' :: rest =>
    (literalLines (openLines rest)).map fun (text, rest) => (String.ofList text, rest)
  | s => readLine s

end Quoted

end CanonicalQuery.Toml
