import EoJava.Text.Units

/-!
# Reading positions

A cursor is the text still to be read together with the number of units read before it.
`Cursor.after` moves it past a piece of text that was taken from the front.
-/

namespace EoJava.Text

/-- A place in a text: what is left to read, and how many units were read. -/
structure Cursor where
  rest : List Char
  offset : Nat
deriving DecidableEq, Repr

namespace Cursor

/-- The cursor before the first character. -/
def start (text : List Char) : Cursor :=
  ⟨text, 0⟩

/-- The cursor after `taken` was read, with `rest` left. -/
def after (cursor : Cursor) (taken rest : List Char) : Cursor :=
  ⟨rest, cursor.offset + width taken⟩

end Cursor

end EoJava.Text
