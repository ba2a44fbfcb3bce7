import EoJava.Text.Units

/-!
# Excerpts

How a message shows a text that it is about: between quotes, with backslashes and control characters
escaped, and cut off if it is long. The text stands between single quotes if it holds none of them,
or else between double quotes or backquotes if it holds none of those. A text that is too wide for
one line is shown line by line, each line between quotes of its own; the lines hold the whole text
(`flatten_pieces`).
-/

namespace EoJava.Text.Excerpt

/-- A dollar sign with an opening brace after it stands in a text. -/
def holdsSubstitution (text : List Char) : Bool :=
  (text.zip (text.drop 1)).contains ('$', '\x7b')

/-- The quote that a text is shown between. -/
def mark (text : List Char) : Char :=
  if !text.contains '\'' then '\''
  else if !text.contains '"' then '"'
  else if !text.contains '\x60' && !holdsSubstitution text then '\x60'
  else '\''

/-- The hexadecimal digit of a number below sixteen, a capital letter from ten on. -/
def hexDigit (n : Nat) : Char :=
  if n < 10 then Char.ofNat ('0'.toNat + n) else Char.ofNat ('A'.toNat + (n - 10))

/-- A character as it stands between two such quotes. -/
def escape (mark c : Char) : List Char :=
  if c = '\\' then ['\\', '\\']
  else if c = '\'' then if mark = '\'' then ['\\', '\''] else ['\'']
  else if c = '\x08' then ['\\', 'b']
  else if c = '\t' then ['\\', 't']
  else if c = '\n' then ['\\', 'n']
  else if c = '\x0c' then ['\\', 'f']
  else if c = '\r' then ['\\', 'r']
  else if c.toNat < 0x20 || (0x7F ≤ c.toNat && c.toNat ≤ 0x9F) then
    ['\\', 'x', hexDigit (c.toNat / 16), hexDigit (c.toNat % 16)]
  else [c]

/-- A text between quotes. -/
def quote (text : List Char) : List Char :=
  let mark := mark text
  mark :: (text.flatMap (escape mark) ++ [mark])

/-- The lines of a text with their line feeds. A text that ends with a line feed has no line after
it. -/
def pieces : List Char → List (List Char)
  | [] => []
  | c :: cs =>
    if c = '\n' then [c] :: pieces cs
    else
      match pieces cs with
      | [] => [[c]]
      | piece :: rest => (c :: piece) :: rest

/-- The lines of a text hold the whole text. -/
theorem flatten_pieces (text : List Char) : (pieces text).flatten = text := by
  fun_induction pieces text with
  | case1 => rfl
  | case2 cs ih => simp [ih]
  | case3 c cs _ none ih => simpa [none] using ih
  | case4 c cs _ piece rest found ih => simpa [found] using ih

/-- The widest text that is shown on one line. -/
def lineWidth : Nat := 76

/-- What stands between two lines. -/
def lineJoin : List Char := " +\n  ".toList

/-- A text between quotes, line by line if it is wide. -/
def quoteLines (text : List Char) : List Char :=
  if lineWidth < width text then lineJoin.intercalate ((pieces text).map quote) else quote text

/-- The number of units of a text that are looked at. -/
def reach : Nat := 10000

/-- The number of units of a quoted text that a message shows. -/
def limit : Nat := 128

/-- A text as a message shows it. -/
def display (text : List Char) : List Char :=
  let quoted := quoteLines (takeUnits reach text)
  if limit < width quoted then takeUnits limit quoted ++ ['.', '.', '.'] else quoted

end EoJava.Text.Excerpt
