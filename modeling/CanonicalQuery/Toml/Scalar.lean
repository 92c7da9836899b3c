import CanonicalQuery.Decimal.Binary64
import CanonicalQuery.Text.Hex

/-!
# Booleans, numbers and times of TOML

A value that is no string, array or table is one run of letters, digits and signs.  Only a date and
a time of day may also be parted by a space.  This module says which runs are values.

- Whole numbers have 64 bits with sign and may be written in base 2, 8, 10 or 16.
- Other numbers have a fraction or an exponent, and may not round to positive infinity.
- Single underscores may stand between digits.
- Dates are days of the calendar.  A time of day may have the second 60, and a time with a date may
  have an offset.

## Main definitions

- `Scalar`, `Scalar.ofRun?`: the values, and the value of a run.
- `IsDate`, `IsTime`, `IsMoment`: dates, times of day, and both together.
- `Scalar.take?`: the value in front of a text.
-/

namespace CanonicalQuery.Toml

/-- A value without parts that is no string. -/
inductive Scalar where
  | boolean (value : Bool)
  | integer (value : Int)
  /-- A number with a fraction or an exponent, as it is written. -/
  | float (literal : String)
  /-- A date, a time of day or both, as they are written. -/
  | moment (literal : String)
  deriving DecidableEq, Repr, Inhabited

/-! ## §1 Digits -/

/-- The digits of a row in which single underscores may stand between digits. -/
def digits? (isDigit : Char → Bool) : List Char → Option (List Char)
  | [] => none
  | [c] => if isDigit c then some [c] else none
  | c :: '_' :: rest => if isDigit c then (digits? isDigit rest).map (c :: ·) else none
  | c :: rest => if isDigit c then (digits? isDigit rest).map (c :: ·) else none

/-- The value of a row of digits. -/
def numeral (base : Nat) (digits : List Char) : Nat :=
  digits.foldl (fun n c => base * n + (Text.hexValue? c).getD 0) 0

/-- A digit of a given base, which is at most 16. -/
def IsDigitOf (base : Nat) (c : Char) : Bool :=
  (Text.hexValue? c).any (· < base)

/-- Drop a sign; the result also tells whether it was a minus sign. -/
def dropSign : List Char → Bool × List Char
  | '-' :: rest => (true, rest)
  | '+' :: rest => (false, rest)
  | run => (false, run)

/-- The digits of a whole number without sign in base 10, which has no zero in front. -/
def wholeDigits? : List Char → Option (List Char)
  | ['0'] => some ['0']
  | '0' :: _ => none
  | run => digits? (IsDigitOf 10) run

/-! ## §2 Numbers -/

/-- A whole number if it has 64 bits. -/
def bounded? (n : Int) : Option Int :=
  let bound : Int := Nat.pow 2 63
  if -bound ≤ n ∧ n < bound then some n else none

/-- The whole number of a run. -/
def integer? : List Char → Option Int
  | '0' :: 'x' :: rest => (digits? (IsDigitOf 16) rest).bind (bounded? <| numeral 16 ·)
  | '0' :: 'o' :: rest => (digits? (IsDigitOf 8) rest).bind (bounded? <| numeral 8 ·)
  | '0' :: 'b' :: rest => (digits? (IsDigitOf 2) rest).bind (bounded? <| numeral 2 ·)
  | run =>
    let (negative, rest) := dropSign run
    (wholeDigits? rest).bind fun ds =>
      bounded? (if negative then -(numeral 10 ds : Int) else numeral 10 ds)

/-- The parts of a number with a fraction or an exponent: the digits before and behind the point,
and the exponent with its sign. -/
def floatParts? (unsigned : List Char) :
    Option (List Char × List Char × Option (Bool × List Char)) := do
  let isMark := fun c => c = '.' ∨ c = 'e' ∨ c = 'E'
  let isLetter := fun c => c = 'e' ∨ c = 'E'
  let whole ← wholeDigits? (unsigned.takeWhile (¬ isMark ·))
  let rest := unsigned.dropWhile (¬ isMark ·)
  let (fraction, rest) ←
    match rest with
    | '.' :: rest => do
      let fraction ← digits? (IsDigitOf 10) (rest.takeWhile (¬ isLetter ·))
      some (fraction, rest.dropWhile (¬ isLetter ·))
    | rest => some ([], rest)
  match rest with
  | [] => if fraction.isEmpty then none else some (whole, fraction, none)
  | _ :: exponent =>
    let (negative, exponent) := dropSign exponent
    let exponent ← digits? (IsDigitOf 10) exponent
    some (whole, fraction, some (negative, exponent))

/-- Whether a whole number times a power of ten rounds to a number of the binary64 format. -/
def roundsToFinite (significand : Nat) (power : Int) : Bool :=
  let length := (Nat.toDigits 10 significand).length
  if significand = 0 ∨ length + power < 300 then true
  else if 310 < length + power then false
  else
    Binary64.IsFinite
      (Binary64.nearest (significand * Nat.pow 10 power.toNat) (Nat.pow 10 (-power).toNat))

/-- Whether a run is a number with a fraction or an exponent, or one of the names that stand for
infinity and for no number. -/
def IsFloat (run : List Char) : Bool :=
  let (negative, unsigned) := dropSign run
  if unsigned = ['i', 'n', 'f'] ∨ unsigned = ['n', 'a', 'n'] then true
  else
    match floatParts? unsigned with
    | none => false
    | some (whole, fraction, exponent) =>
      let significand := numeral 10 (whole ++ fraction)
      let shift : Int :=
        match exponent with
        | none => 0
        | some (true, digits) => -(numeral 10 digits : Int)
        | some (false, digits) => numeral 10 digits
      -- only positive infinity is refused
      negative || roundsToFinite significand (shift - fraction.length)

/-! ## §3 Dates and times -/

/-- The value of a row of exactly this many digits. -/
def fixed? (count : Nat) (digits : List Char) : Option Nat :=
  if digits.length = count ∧ digits.all Char.isDigit then some (numeral 10 digits) else none

/-- The number of days of a month. -/
def daysOfMonth (year month : Nat) : Nat :=
  if month = 2 then
    if year % 4 = 0 ∧ (year % 100 ≠ 0 ∨ year % 400 = 0) then 29 else 28
  else if month = 4 ∨ month = 6 ∨ month = 9 ∨ month = 11 then 30
  else 31

/-- Whether a row is a day of the calendar: year, month and day with dashes between them. -/
def IsDate : List Char → Bool
  | [y₁, y₂, y₃, y₄, '-', m₁, m₂, '-', d₁, d₂] =>
    match fixed? 4 [y₁, y₂, y₃, y₄], fixed? 2 [m₁, m₂], fixed? 2 [d₁, d₂] with
    | some year, some month, some day =>
      decide (1 ≤ month ∧ month ≤ 12 ∧ 1 ≤ day ∧ day ≤ daysOfMonth year month)
    | _, _, _ => false
  | _ => false

/-- Whether two digits are a number below a bound. -/
def twoBelow (bound : Nat) (a b : Char) : Bool :=
  (fixed? 2 [a, b]).any (· < bound)

/-- Whether a row is a time of day: hour, minute and second with colons between them, and perhaps a
fraction of the second. -/
def IsTime : List Char → Bool
  | h₁ :: h₂ :: ':' :: m₁ :: m₂ :: ':' :: s₁ :: s₂ :: fraction =>
    twoBelow 24 h₁ h₂ && twoBelow 60 m₁ m₂ && twoBelow 61 s₁ s₂ &&
      match fraction with
      | [] => true
      | '.' :: digits => !digits.isEmpty && digits.all Char.isDigit
      | _ => false
  | _ => false

/-- Whether a row is the offset of a time: a letter, or hour and minute with a sign. -/
def IsOffset : List Char → Bool
  | ['Z'] | ['z'] => true
  | [sign, h₁, h₂, ':', m₁, m₂] =>
    decide (sign = '+' ∨ sign = '-') && twoBelow 24 h₁ h₂ && twoBelow 60 m₁ m₂
  | _ => false

/-- Whether a row is a time of day, perhaps with an offset. -/
def IsOffsetTime (run : List Char) : Bool :=
  let isTimeChar := fun c : Char => c.isDigit || c = ':' || c = '.'
  let offset := run.dropWhile isTimeChar
  IsTime (run.takeWhile isTimeChar) && (offset.isEmpty || IsOffset offset)

/-- Whether a run is a date, a time of day, or both with a letter between them. -/
def IsMoment (run : List Char) : Bool :=
  IsTime run || IsDate run ||
    match run.drop 10 with
    | mark :: time => IsDate (run.take 10) && decide (mark = 'T' ∨ mark = 't') && IsOffsetTime time
    | [] => false

/-! ## §4 Runs -/

/-- The characters of a run. -/
def IsRunChar (c : Char) : Bool :=
  c.isAlphanum || c = '+' || c = '-' || c = '_' || c = '.' || c = ':'

/-- The value of a run. -/
def Scalar.ofRun? (run : List Char) : Option Scalar :=
  if run = ['t', 'r', 'u', 'e'] then some (.boolean true)
  else if run = ['f', 'a', 'l', 's', 'e'] then some (.boolean false)
  else if IsMoment run then some (.moment (String.ofList run))
  else
    match integer? run with
    | some n => some (.integer n)
    | none => if IsFloat run then some (.float (String.ofList run)) else none

/-- The value in front of a text and what follows it.  A date that is followed by a space and a
digit goes on with a time of day. -/
def Scalar.take? (s : List Char) : Option (Scalar × List Char) :=
  let run := s.takeWhile IsRunChar
  match s.dropWhile IsRunChar with
  | ' ' :: c :: rest =>
    if IsDate run && c.isDigit then
      let time := (c :: rest).takeWhile IsRunChar
      if IsOffsetTime time then
        some (.moment (String.ofList (run ++ ' ' :: time)), (c :: rest).dropWhile IsRunChar)
      else none
    else (ofRun? run).map (·, ' ' :: c :: rest)
  | rest => (ofRun? run).map (·, rest)

end CanonicalQuery.Toml
