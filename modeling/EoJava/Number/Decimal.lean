/-!
# Decimals

A decimal is a whole number times a power of ten. `Decimal.display` writes it positionally while its
first digit stands between the sixth place after the point and the twenty-first before it, and
otherwise as one digit, a fraction and a power of ten.
-/

namespace EoJava

/-- A number that is not negative: `digits` times ten to the `exponent`. -/
structure Decimal where
  digits : Nat
  exponent : Int
deriving DecidableEq, Repr

namespace Decimal

/-- The numerator of a decimal as a fraction over `denominator`. -/
def numerator (d : Decimal) : Nat :=
  d.digits * Nat.pow 10 d.exponent.toNat

/-- The denominator of a decimal, a power of ten. -/
def denominator (d : Decimal) : Nat :=
  Nat.pow 10 (-d.exponent).toNat

/-- The most zeros that stand between the point and the first digit. -/
def leadingZeros : Int := 5

/-- The most digits that stand before the point. -/
def wholeDigits : Int := 21

/-- Digits with the point after the first `point` of them. Zeros fill the places between the digits
and the point. -/
def positional (digits : List Char) (point : Int) : String :=
  let whole := digits.take point.toNat ++ List.replicate (point.toNat - digits.length) '0'
  let fraction := List.replicate (-point).toNat '0' ++ digits.drop point.toNat
  (if whole = [] then "0" else String.ofList whole) ++
    if fraction = [] then "" else "." ++ String.ofList fraction

/-- Digits with the point after the first one, and the power of ten they are multiplied by. -/
def scientific (digits : List Char) (power : Int) : String :=
  let fraction := digits.drop 1
  String.ofList (digits.take 1) ++
    (if fraction = [] then "" else "." ++ String.ofList fraction) ++
    "e" ++ (if power < 0 then "-" else "+") ++ toString power.natAbs

/-- A decimal as written. -/
def display (d : Decimal) : String :=
  let digits := (toString d.digits).toList
  let point : Int := digits.length + d.exponent
  if -leadingZeros ≤ point ∧ point ≤ wholeDigits then positional digits point
  else scientific digits (point - 1)

end Decimal

end EoJava
