import EoJava.Number.Decimal

/-!
# Binary numbers of 64 bits

A number is kept as the binary number of 64 bits nearest to it, a tie going to the even neighbour.
The size of a finite one is counted in units of the smallest positive one, two to the minus 1074.
-/

namespace EoJava

/-- A quotient rounded to the nearest whole number, a tie to the even one. -/
def roundQuotient (numerator denominator : Nat) : Nat :=
  let whole := numerator / denominator
  let twice := 2 * (numerator % denominator)
  if denominator < twice ∨ twice = denominator ∧ whole % 2 = 1 then whole + 1 else whole

/-- The size of a binary number of 64 bits: a finite number of units, `significand` times two to the
`exponent`, or more than any of those. -/
inductive Magnitude where
  | finite (significand exponent : Nat)
  | infinite
deriving DecidableEq, Repr

namespace Magnitude

/-- The bits of a significand. -/
def precision : Nat := 53

/-- The places of the unit after the binary point. -/
def places : Nat := 1074

/-- The largest exponent of a finite size. -/
def largestExponent : Nat := 2045

/-- A size from its parts. A significand of one bit too many is a power of two and takes the next
exponent. -/
def ofParts (significand exponent : Nat) : Magnitude :=
  let (significand, exponent) :=
    if significand = Nat.pow 2 precision then (Nat.pow 2 (precision - 1), exponent + 1)
    else (significand, exponent)
  if largestExponent < exponent then .infinite else .finite significand exponent

/-- The size nearest to a fraction. -/
def nearest (numerator denominator : Nat) : Magnitude :=
  let units := numerator * Nat.pow 2 places
  let exponent := (units / denominator).log2 + 1 - precision
  ofParts (roundQuotient units (denominator * Nat.pow 2 exponent)) exponent

/-- The size nearest to a decimal. -/
def ofDecimal (d : Decimal) : Magnitude :=
  nearest d.numerator d.denominator

end Magnitude

/-- A binary number of 64 bits. -/
structure Binary64 where
  negative : Bool
  magnitude : Magnitude
deriving DecidableEq, Repr

/-- The number nearest to a decimal with a sign. -/
def Binary64.ofDecimal (negative : Bool) (d : Decimal) : Binary64 :=
  ⟨negative, .ofDecimal d⟩

end EoJava
