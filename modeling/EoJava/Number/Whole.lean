import EoJava.Number.Shortest

/-!
# Whole numbers

A whole number is written with all its digits while it has no more than twenty-one. A larger one is
written as the binary number nearest to it.
-/

namespace EoJava.Whole

/-- The least size that is not written with all its digits. -/
def limit : Nat := Nat.pow 10 21

/-- A whole number as written. -/
def display (n : Int) : String :=
  if n.natAbs < limit then toString n
  else (Binary64.ofDecimal (decide (n < 0)) ⟨n.natAbs, 0⟩).display

end EoJava.Whole
