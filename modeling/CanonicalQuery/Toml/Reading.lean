import CanonicalQuery.Toml.Item
import CanonicalQuery.Toml.Quoted

/-!
# Reading TOML

A document is read line by line.  A line holds a header, an assignment or nothing, and may end with
a comment; only strings of several lines and arrays go on beyond a line end.

Values may nest in at most 79 arrays and inline tables, and a dotted key has at most 79 parts.

## Main definitions

- `takeKey`: a dotted key.
- `takeValue`: a value.
- `Document.ofText?`: the document of a text.
- `Entries.ofText?`: the table that a text describes.
-/

namespace CanonicalQuery.Toml

/-! ## §1 Blank space -/

/-- The text behind blanks. -/
def skipBlanks (s : List Char) : List Char :=
  s.dropWhile fun c => IsBlank c

/-- The text behind a comment, if one comes next. -/
def skipComment : List Char → List Char
  | '#' :: rest => rest.dropWhile fun c => MayStand c
  | s => s

/-- The text behind the end of a line, before which blanks and a comment may stand.  The last line
ends with the text. -/
def endLine? (s : List Char) : Option (List Char) :=
  match skipComment (skipBlanks s) with
  | [] => some []
  | rest => lineEnd? rest

/-- The text behind blanks, comments and line ends. -/
def skipLines : Nat → List Char → List Char
  | 0, s => s
  | lines + 1, s =>
    match lineEnd? (skipComment (skipBlanks s)) with
    | some rest => skipLines lines rest
    -- a comment that no line end follows stays and is refused
    | none => skipBlanks s

/-- The text behind blanks, comments and line ends. -/
def skipSpace (s : List Char) : List Char :=
  skipLines s.length s

/-! ## §2 Keys -/

/-- The greatest number of parts of a key, and of brackets around a value. -/
def mostNested : Nat := 79

/-- The characters of a key without quotes. -/
def IsKeyChar (c : Char) : Bool :=
  c.isAlphanum || c = '-' || c = '_'

/-- One part of a key. -/
def takePart (s : List Char) : Option (String × List Char) :=
  match s with
  | '"' :: _ => Quoted.readLine s
  | '\'' :: _ => Quoted.readLine s
  | s =>
    let part := s.takeWhile IsKeyChar
    if part.isEmpty then none else some (String.ofList part, s.dropWhile IsKeyChar)

/-- The parts of a key with points and blanks between them. -/
def takeParts : Nat → List Char → Option (List String × List Char)
  | 0, _ => none
  | parts + 1, s => do
    let (part, rest) ← takePart (skipBlanks s)
    match skipBlanks rest with
    | '.' :: rest =>
      let (more, rest) ← takeParts parts rest
      some (part :: more, rest)
    | rest => some ([part], rest)

/-- A dotted key with the blanks around it: the parts before the last one, and that one. -/
def takeKey (s : List Char) : Option ((List String × String) × List Char) := do
  let (parts, rest) ← takeParts mostNested s
  let key ← parts.getLast?
  some ((parts.dropLast, key), rest)

/-! ## §3 Values -/

mutual

/-- A value in front of a text.  The first argument bounds the recursion, the second says how many
more brackets may be opened. -/
def takeValue : Nat → Nat → List Char → Option (Item × List Char)
  | 0, _, _ => none
  | fuel + 1, room, s =>
    match s with
    | '"' :: _ | '\'' :: _ => (Quoted.read s).map fun (text, rest) => (.string text, rest)
    | '[' :: rest =>
      match room with
      | 0 => none
      | room + 1 =>
        match skipSpace rest with
        | ']' :: rest => some (.array [], rest)
        | rest => (takeItems fuel room rest).map fun (items, rest) => (.array items, rest)
    | '\x7b' :: rest =>
      match room with
      | 0 => none
      | room + 1 => do
        let (assignments, rest) ←
          match skipBlanks rest with
          | '\x7d' :: rest => some ([], rest)
          | rest => takeAssignments fuel room rest
        let entries ← Entries.assign? assignments []
        some (.table .inline entries, rest)
    | s => (Scalar.take? s).map fun (value, rest) => (.scalar value, rest)

/-- The items of an array that is not empty, and its closing bracket; a comma may stand before
it. -/
def takeItems : Nat → Nat → List Char → Option (List Item × List Char)
  | 0, _, _ => none
  | fuel + 1, room, s => do
    let (item, rest) ← takeValue fuel room s
    match skipSpace rest with
    | ']' :: rest => some ([item], rest)
    | ',' :: rest =>
      match skipSpace rest with
      | ']' :: rest => some ([item], rest)
      | rest =>
        let (items, rest) ← takeItems fuel room rest
        some (item :: items, rest)
    | _ => none

/-- The assignments of an inline table that is not empty, and its closing brace. -/
def takeAssignments : Nat → Nat → List Char → Option (List Assignment × List Char)
  | 0, _, _ => none
  | fuel + 1, room, s => do
    let ((path, key), rest) ← takeKey s
    match rest with
    | '=' :: rest =>
      let (value, rest) ← takeValue fuel room (skipBlanks rest)
      match skipBlanks rest with
      | '\x7d' :: rest => some ([{ path, key, value }], rest)
      | ',' :: rest =>
        let (assignments, rest) ← takeAssignments fuel room rest
        some ({ path, key, value } :: assignments, rest)
      | _ => none
    | _ => none

end

/-- An assignment in front of a text, up to the end of its line. -/
def takeAssignment (s : List Char) : Option (Assignment × List Char) := do
  let ((path, key), rest) ← takeKey s
  match rest with
  | '=' :: rest =>
    -- every second call takes a character away
    let (value, rest) ← takeValue (2 * rest.length + 2) mostNested (skipBlanks rest)
    return ({ path, key, value }, ← endLine? rest)
  | _ => none

/-! ## §4 Lines -/

/-- The header in front of a text, up to the end of its line. -/
def takeHeader (s : List Char) : Option (Header × List Char) :=
  match s with
  | '[' :: '[' :: rest => do
    let ((path, key), rest) ← takeKey rest
    match rest with
    | ']' :: ']' :: rest => return (.element path key, ← endLine? rest)
    | _ => none
  | '[' :: rest => do
    let ((path, key), rest) ← takeKey rest
    match rest with
    | ']' :: rest => return (.table path key, ← endLine? rest)
    | _ => none
  | _ => none

/-- Put a header in front of a document: its first assignments become a section. -/
def Document.under (header : Header) (d : Document) : Document :=
  { top := [], sections := { header, assignments := d.top } :: d.sections }

/-- Put an assignment in front of a document. -/
def Document.after (a : Assignment) (d : Document) : Document :=
  { d with top := a :: d.top }

/-- The document that a number of lines hold. -/
def Document.ofLines? : Nat → List Char → Option Document
  | 0, s => if s.isEmpty then some { top := [], sections := [] } else none
  | lines + 1, s =>
    match skipBlanks s with
    | [] => some { top := [], sections := [] }
    | '[' :: rest => do
      let (header, rest) ← takeHeader ('[' :: rest)
      return (← ofLines? lines rest).under header
    | c :: rest =>
      match endLine? (c :: rest) with
      | some rest => ofLines? lines rest
      | none => do
        let (a, rest) ← takeAssignment (c :: rest)
        return (← ofLines? lines rest).after a

/-- The document of a text; a byte order mark may stand in front. -/
def Document.ofText? (text : String) : Option Document :=
  let s :=
    match text.toList with
    | '\ufeff' :: rest => rest
    | s => s
  Document.ofLines? (s.length + 1) s

/-- The table that a text describes. -/
def Entries.ofText? (text : String) : Option Entries :=
  (Document.ofText? text).bind Document.entries?

end CanonicalQuery.Toml
