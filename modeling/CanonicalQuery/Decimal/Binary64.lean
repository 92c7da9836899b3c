/-!
# Rounding to binary64

Every finite number of the binary64 format is a whole multiple of 2⁻¹⁰⁷⁴, so a number that is not
negative is given here by that multiple, its count of *units*.  Rounding a fraction, multiplying and
dividing are then exact arithmetic on natural numbers followed by one rounding to 53 significant
bits, ties going to the even neighbour.

## Main definitions

- `roundHalfEven`: the integer nearest to a fraction.
- `Binary64.nearest`: the units of the number nearest to a fraction.
- `Binary64.IsFinite`: whether that many units are below the range of the format.
- `Binary64.mul`, `Binary64.div`, `Binary64.powTen`: the arithmetic that reading a literal needs.
-/

namespace CanonicalQuery

/-- The integer nearest to a fraction; of two that are equally near, the even one. -/
def roundHalfEven (numerator denominator : Nat) : Nat :=
  let below := numerator / denominator
  let rest := 2 * (numerator % denominator)
  if rest < denominator then below
  else if rest = denominator ∧ below % 2 = 0 then below
  else below + 1

namespace Binary64

/-- How many units make up the number one. -/
def one : Nat := Nat.pow 2 1074

/-- The units of the binary64 number nearest to a fraction, ties to even. -/
def nearest (numerator denominator : Nat) : Nat :=
  let scaled := numerator * one
  -- a number of more than 53 bits loses the bits in excess
  let excess := (scaled / denominator).log2 + 1 - 53
  roundHalfEven scaled (denominator * Nat.pow 2 excess) * Nat.pow 2 excess

/-- The format ends below 2¹⁰²⁴. -/
def IsFinite (units : Nat) : Prop :=
  units < Nat.pow 2 1024 * one

instance (units : Nat) : Decidable (IsFinite units) :=
  inferInstanceAs (Decidable (units < Nat.pow 2 1024 * one))

/-- The rounded product of two numbers. -/
def mul (a b : Nat) : Nat :=
  nearest (a * b) (one * one)

/-- The rounded quotient of two numbers. -/
def div (a b : Nat) : Nat :=
  nearest a b

/-- The number nearest to a power of ten. -/
def powTen (k : Nat) : Nat :=
  nearest (Nat.pow 10 k) 1

end Binary64

end CanonicalQuery
