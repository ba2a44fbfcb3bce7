import EoJava.Number.Binary64

/-!
# Shortest decimals

The decimal that stands for a binary number is the one with the fewest digits among those that the
number is nearest to, and of two such decimals the closer one. The search goes through the powers of
ten from the largest to the smallest, looks at the two multiples around the number, and takes the
first that reads back.
-/

namespace EoJava

namespace Magnitude

/-- The two multiples of a power of ten around a finite size, the closer one first and the even one
first if they are equally close. -/
def neighbours (significand exponent : Nat) (power : Int) : List Decimal :=
  let numerator := significand * Nat.pow 2 exponent * Nat.pow 10 (-power).toNat
  let denominator := Nat.pow 2 places * Nat.pow 10 power.toNat
  let below := numerator / denominator
  let closer := roundQuotient numerator denominator
  [⟨closer, power⟩, ⟨if closer = below then below + 1 else below, power⟩]

/-- The multiple of a power of ten that stands for a finite size, if there is one. -/
def multiple? (significand exponent : Nat) (power : Int) : Option Decimal :=
  (neighbours significand exponent power).find? fun d =>
    decide (ofDecimal d = .finite significand exponent)

/-- The largest power of ten that is looked at: more than any finite size. -/
def largestPower : Int := 309

/-- The number of powers of ten that are looked at. The smallest one is less than a unit. -/
def powerCount : Nat := 634

/-- A finite size as a decimal, to the last digit. -/
def exact (significand exponent : Nat) : Decimal :=
  ⟨significand * Nat.pow 2 exponent * Nat.pow 5 places, -(places : Int)⟩

/-- The decimal that stands for a finite size. -/
def shortest (significand exponent : Nat) : Decimal :=
  if significand = 0 then ⟨0, 0⟩
  else
    ((List.range powerCount).findSome? fun (step : Nat) =>
      multiple? significand exponent (largestPower - step)).getD (exact significand exponent)

end Magnitude

namespace Binary64

/-- The decimal that stands for a number without its sign, if the number is finite. -/
def shortest? (number : Binary64) : Option Decimal :=
  match number.magnitude with
  | .finite significand exponent => some (Magnitude.shortest significand exponent)
  | .infinite => none

/-- A number as written. Zero has no sign. -/
def display (number : Binary64) : String :=
  let sign := if number.negative then "-" else ""
  match number.shortest? with
  | none => sign ++ "Infinity"
  | some d => if d.digits = 0 then "0" else sign ++ d.display

end Binary64

end EoJava
