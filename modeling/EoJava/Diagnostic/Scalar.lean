import EoJava.Number.Whole

/-!
# Plain values

The values that a message can be filled with and that a failing sink can raise: texts, numbers,
truth values and the absent value, each with the text it is shown as.
-/

namespace EoJava

/-- A plain value. -/
inductive Scalar where
  | text (value : String)
  /-- A whole number, of any size. -/
  | int (value : Int)
  | number (value : Binary64)
  | truth (value : Bool)
  | absent
deriving DecidableEq, Repr

namespace Scalar

/-- The text a value is shown as. -/
def display : Scalar → String
  | .text value => value
  | .int value => Whole.display value
  | .number value => value.display
  | .truth true => "true"
  | .truth false => "false"
  | .absent => "null"

end Scalar

/-- Named values, as given to a message. -/
abbrev Arguments := List (String × Scalar)

end EoJava
