import CanonicalQuery.Text.Utf8

/-!
# Files

What stands at a path of a file system, and what may go wrong when a text is read from there.

Whether a path leads to a regular file and whether it can be read are two questions.  A regular file
may be closed to its reader, or reading it may fail half-way; and other things than regular files
can be read, to their end or not at all.

## Main definitions

- `Failure`: why no text can be read, and its wording.
- `Stream`: what is read from something that is open.
- `Entry`: whether a regular file stands at a path, and what opening it gives.
- `Entry.text`: the text of an entry.
-/

namespace CanonicalQuery.Files

/-! ## §1 Failures -/

/-- Why no text can be read. -/
inductive Failure where
  | missing
  /-- The path leads through a file. -/
  | notDirectory
  | directory
  /-- The path may not be followed, or what stands there may not be read. -/
  | denied
  /-- The path, or a name on it, is longer than it can be. -/
  | nameTooLong
  /-- The octets are no UTF-8. -/
  | notText
  /-- Something else, in the words of the system. -/
  | other (message : String)
  deriving DecidableEq, Repr

/-- The wording of a failure. -/
def Failure.message : Failure → String
  | .missing => "No such file or directory (os error 2)"
  | .notDirectory => "Not a directory (os error 20)"
  | .directory => "Is a directory (os error 21)"
  | .denied => "Permission denied (os error 13)"
  | .nameTooLong => "File name too long (os error 36)"
  | .notText => "stream did not contain valid UTF-8"
  | .other message => message

/-! ## §2 Streams -/

/-- What is read from something that is open: octets, and behind them the end or a failure. -/
structure Stream where
  octets : ByteArray
  /-- Why nothing can be read behind the octets, if that is not the end. -/
  failure? : Option Failure := none

namespace Stream

/-- A stream that ends behind its octets. -/
def ended (octets : ByteArray) : Stream where
  octets := octets

/-- A stream that nothing can be read from. -/
def failing (cause : Failure) : Stream where
  octets := .empty
  failure? := some cause

end Stream

/-- The text in octets, if they are UTF-8. -/
def textOf (octets : ByteArray) : Except Failure String :=
  match Utf8.text? octets with
  | some text => .ok text
  | none => .error .notText

/-- The text of a stream.  A failure is told of before octets that are no UTF-8. -/
def Stream.text (s : Stream) : Except Failure String :=
  match s.failure? with
  | none => textOf s.octets
  | some cause => .error cause

/-! ## §3 Entries -/

/-- What stands at a path. -/
structure Entry where
  /-- Whether it is a regular file. -/
  isFile : Bool
  /-- What opening it gives. -/
  opened : Except Failure Stream

namespace Entry

/-- A regular file that can be read to its end. -/
def file (octets : ByteArray) : Entry :=
  ⟨true, .ok (.ended octets)⟩

/-- A directory opens, but nothing is read from it. -/
def directory : Entry :=
  ⟨false, .ok (.failing .directory)⟩

/-- Nothing that can be opened. -/
def absent (cause : Failure) : Entry :=
  ⟨false, .error cause⟩

/-- The text of an entry. -/
def text (e : Entry) : Except Failure String := do
  (← e.opened).text

end Entry

end CanonicalQuery.Files
