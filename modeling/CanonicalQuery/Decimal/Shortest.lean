import CanonicalQuery.Decimal.Binary64

/-!
# Shortest decimals

The shortest decimal of a binary64 number is the one with the fewest digits that rounds back to the
number; of two with equally few digits it is the nearer one, and of two that are equally near the
even one.  If a decimal with a given count of digits rounds back to the number, then one of the
number's two neighbours among the decimals with that many digits does, so the search looks at these
two for one digit, two digits and so on; seventeen always suffice.

## Main definitions

- `Decimal`: digits and a power of ten.
- `Binary64.shortest`: the shortest decimal of a number given by its units.
- `Notation.write`: how such a decimal is written, as a plain number or with an exponent.
-/

namespace CanonicalQuery

/-- The number `digits · 10 ^ exponent`. -/
structure Decimal where
  digits : Nat
  exponent : Int
  deriving DecidableEq, Repr, Inhabited

namespace Decimal

/-- The number as a fraction. -/
def fraction (d : Decimal) : Nat × Nat :=
  if d.exponent < 0 then (d.digits, Nat.pow 10 d.exponent.natAbs)
  else (d.digits * Nat.pow 10 d.exponent.natAbs, 1)

/-- Whether the number rounds to the given count of units. -/
def ReadsBack (d : Decimal) (units : Nat) : Prop :=
  Binary64.nearest d.fraction.1 d.fraction.2 = units

instance (d : Decimal) (units : Nat) : Decidable (d.ReadsBack units) :=
  inferInstanceAs (Decidable (_ = _))

/-- The number without zeros at the end of its digits; `fuel` bounds how many are taken away. -/
def trim : Nat → Decimal → Decimal
  | 0, d => d
  | fuel + 1, d =>
    if d.digits % 10 = 0 ∧ d.digits ≠ 0 then trim fuel ⟨d.digits / 10, d.exponent + 1⟩ else d

end Decimal

namespace Binary64

/-- The power of ten just above a number: `10 ^ (magnitude - 1) ≤ number < 10 ^ magnitude`. -/
def magnitude (units : Nat) : Int :=
  (Nat.toDigits 10 (units * Nat.pow 10 324 / one)).length - 324

/-- The two neighbours of a number among the multiples of `10 ^ exponent`, the nearer one first; of
two that are equally near the even one is first. -/
def neighbours (units : Nat) (exponent : Int) : Decimal × Decimal :=
  let (num, den) :=
    if exponent < 0 then (units * Nat.pow 10 exponent.natAbs, one)
    else (units, one * Nat.pow 10 exponent.natAbs)
  let below := num / den
  let near := roundHalfEven num den
  let far := if near = below then below + 1 else below
  (⟨near, exponent⟩, ⟨far, exponent⟩)

/-- The shortest decimal that rounds back to a number, searched from `count` digits upwards. -/
def shortestFrom (units : Nat) : (fuel : Nat) → (count : Nat) → Decimal
  | 0, count => (neighbours units (magnitude units - count)).1
  | fuel + 1, count =>
    let (near, far) := neighbours units (magnitude units - count)
    if near.ReadsBack units then near
    else if far.ReadsBack units then far
    else shortestFrom units fuel (count + 1)

/-- The shortest decimal of a number; zero has the digit zero. -/
def shortest (units : Nat) : Decimal :=
  if units = 0 then ⟨0, 0⟩ else (shortestFrom units 17 1).trim 18

end Binary64

/-! ## §2 Writing a decimal -/

/-- How a decimal is written. -/
structure Notation where
  /-- Plain notation ends where the number has more digits than this before its point. -/
  mostWhole : Int
  /-- Plain notation ends where more zeros than this follow the point. -/
  mostZeros : Int
  /-- What stands before a positive exponent. -/
  plus : String
  deriving Repr

/-- A string of zeros. -/
def zeros (count : Nat) : String :=
  String.ofList (List.replicate count '0')

/-- Write a decimal: plain notation always has a point with a digit behind it, and the exponent of
the other notation follows one digit and, if there are more, a point and the rest. -/
def Notation.write (n : Notation) (d : Decimal) : String :=
  let digits := Nat.toDigits 10 d.digits
  -- the count of digits before the point
  let whole : Int := digits.length + d.exponent
  if 0 ≤ d.exponent ∧ whole ≤ n.mostWhole then
    String.ofList digits ++ zeros d.exponent.toNat ++ ".0"
  else if 0 < whole ∧ whole ≤ n.mostWhole then
    String.ofList (digits.take whole.toNat) ++ "." ++ String.ofList (digits.drop whole.toNat)
  else if -n.mostZeros ≤ whole ∧ whole ≤ 0 then
    "0." ++ zeros whole.natAbs ++ String.ofList digits
  else
    let power := whole - 1
    let sign := if power < 0 then "-" else n.plus
    let tail := digits.drop 1
    let rest := if tail.isEmpty then "" else "." ++ String.ofList tail
    String.ofList (digits.take 1) ++ rest ++ "e" ++ sign ++ toString power.natAbs

end CanonicalQuery
