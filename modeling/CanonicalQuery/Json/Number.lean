import CanonicalQuery.Decimal.Shortest

/-!
# Number literals

A JSON number is kept as its literal.  This module says which literals are whole numbers of 64 bits,
which number of the binary64 format any other literal stands for, and which literals are too large
for that format.

A literal is read as a whole number of 64 bits, the *significand*, times a power of ten.  Digits
that no longer fit into the significand only count towards the power.  The significand and the power
are each rounded to binary64 before they are multiplied or divided.

## Main definitions

- `Literal.parse`: the parts of a literal.
- `Literal.units?`: the binary64 number of a literal, `none` beyond the range of the format.
- `Literal.Overflows`: no more of a literal is needed to see that it is beyond the range.
- `Literal.integer?`: the whole number of a literal, if it is one of 64 bits.
-/

namespace CanonicalQuery.Json

/-- The parts of a number literal. -/
structure Literal where
  /-- Whether a minus sign stands in front. -/
  negative : Bool
  whole : List Char
  fraction : List Char
  /-- The sign and the digits of the exponent, if there is one. -/
  exponent : Option (Bool × List Char)
  deriving Repr

namespace Literal

/-- The value of a digit. -/
def digit (c : Char) : Nat :=
  c.toNat - '0'.toNat

/-- The value of a row of digits. -/
def value (digits : List Char) : Nat :=
  digits.foldl (fun n c => 10 * n + digit c) 0

/-- The exponent of a literal, behind its letter. -/
def parseExponent : List Char → Bool × List Char
  | '-' :: digits => (true, digits)
  | '+' :: digits => (false, digits)
  | digits => (false, digits)

/-- Take a literal apart; the text is expected to be a number literal. -/
def parse (literal : String) : Literal :=
  let chars := literal.toList
  let negative := chars.head? = some '-'
  let unsigned := if negative then chars.drop 1 else chars
  let whole := unsigned.takeWhile Char.isDigit
  let rest := unsigned.dropWhile Char.isDigit
  let fraction := if rest.head? = some '.' then (rest.drop 1).takeWhile Char.isDigit else []
  let rest := if rest.head? = some '.' then (rest.drop 1).dropWhile Char.isDigit else rest
  { negative, whole, fraction, exponent := rest.tail?.map parseExponent }

/-! ## §1 The binary64 number -/

/-- The largest significand. -/
def mostSignificand : Nat := Nat.pow 2 64 - 1

/-- Append digits to a significand as long as it stays within 64 bits; the result is the
significand and the digits that did not fit. -/
def absorb (significand : Nat) : List Char → Nat × List Char
  | [] => (significand, [])
  | c :: rest =>
    let next := 10 * significand + digit c
    if next ≤ mostSignificand then absorb next rest else (significand, c :: rest)

/-- The significand of a literal and the power of ten that goes with it. -/
def scale (l : Literal) : Nat × Int :=
  let (whole, left) := absorb 0 l.whole
  let (significand, unused) := absorb whole l.fraction
  let shift : Int := left.length - (l.fraction.length - unused.length : Nat)
  let power : Int :=
    match l.exponent with
    | none => 0
    | some (true, digits) => - (value digits : Int)
    | some (false, digits) => value digits
  (significand, shift + power)

/-- The largest power of ten in the binary64 format. -/
def mostPower : Nat := 308

/-- Divide by a power of ten, in steps that stay within the format. -/
def shrink (units power : Nat) : Nat :=
  if units = 0 then 0
  else if power ≤ mostPower then Binary64.div units (Binary64.powTen power)
  else shrink (Binary64.div units (Binary64.powTen mostPower)) (power - mostPower)
termination_by power
decreasing_by simp only [mostPower] at *; omega

/-- The binary64 number of a literal without its sign, `none` beyond the range of the format. -/
def units? (l : Literal) : Option Nat :=
  let (significand, power) := l.scale
  let units := Binary64.nearest significand 1
  if units = 0 then some 0
  else if power < 0 then some (shrink units power.natAbs)
  else if mostPower < power then none
  else
    let product := Binary64.mul units (Binary64.powTen power.natAbs)
    if Binary64.IsFinite product then some product else none

/-- The largest exponent that is counted. -/
def mostExponent : Nat := Nat.pow 2 31 - 1

/-- Whether the exponent of a literal is more than is counted, and the literal is no zero.  Such a
literal is beyond the range however it goes on. -/
def Overflows (l : Literal) : Bool :=
  match l.exponent with
  | some (false, digits) => mostExponent < value digits ∧ l.scale.1 ≠ 0
  | _ => false

/-! ## §2 Whole numbers -/

/-- The whole number of a literal: one without point and exponent that fits into 64 bits, with a
sign bit if it is negative.  A negative zero is none of them. -/
def integer? (l : Literal) : Option Int :=
  if l.fraction ≠ [] ∨ l.exponent.isSome then none
  else
    let n := value l.whole
    if l.negative then if 0 < n ∧ n ≤ Nat.pow 2 63 then some (-n) else none
    else if n ≤ mostSignificand then some n else none

/-- Numbers with a fraction are written plainly up to sixteen digits before the point and up to four
zeros behind it. -/
def fractional : Notation := ⟨16, 4, "+"⟩

/-- The text of a number that is no whole number of 64 bits. -/
def fractionalText (l : Literal) : String :=
  (if l.negative then "-" else "") ++ fractional.write (Binary64.shortest (l.units?.getD 0))

end Literal

/-- Whether a literal is within the range of the binary64 format. -/
def literalIsFinite (literal : List Char) : Bool :=
  (Literal.parse (String.ofList literal)).units?.isSome

/-- Whether a literal is refused before it is over. -/
def literalOverflows (literal : List Char) : Bool :=
  (Literal.parse (String.ofList literal)).Overflows

end CanonicalQuery.Json
