import EoJava.Text.Numeral
import EoJava.Text.Quoted

/-!
# Java literals

Strings are quoted. Numbers are written as they stand in the source: a fraction is a `double`, a
whole number an `int`, or a `long` with its suffix if no `int` holds it. A whole number that no
`long` holds has no literal.
-/

namespace EoJava.Java

/-- The literal of a text. -/
def stringLiteral (value : String) : String :=
  String.ofList (Text.Quoted.quote value.toList)

/-- The least and the greatest `int`. -/
def intRange : Int × Int := (-Int.pow 2 31, Int.pow 2 31 - 1)

/-- The least and the greatest `long`. -/
def longRange : Int × Int := (-Int.pow 2 63, Int.pow 2 63 - 1)

/-- A number lies in a range, both ends included. -/
def inRange (range : Int × Int) (n : Int) : Bool :=
  range.1 ≤ n && n ≤ range.2

/-- The literal of a number as it stands in a source. -/
def numberLiteral? (text : String) : Option String :=
  let digits := text.toList
  if !Text.Numeral.isNumeral digits then none
  else if digits.contains '.' then some text
  else
    let value := Text.Numeral.intValue digits
    if inRange intRange value then some text
    else if inRange longRange value then some (text ++ "L")
    else none

end EoJava.Java
