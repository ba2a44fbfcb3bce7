/-!
# Indentation characters

A file indents with tabs or with spaces. The style of a line is that of its first character, and a
line is uniform when all its leading whitespace is of that style.
-/

namespace EoJava.Text

/-- The character a file indents with. -/
inductive IndentStyle where
  | tabs
  | spaces
deriving DecidableEq, Repr

namespace IndentStyle

/-- The style a character belongs to, if it is a tab or a space. -/
def ofChar? (c : Char) : Option IndentStyle :=
  if c = '\t' then some .tabs
  else if c = ' ' then some .spaces
  else none

/-- The name of a style in messages. -/
def name : IndentStyle → String
  | .tabs => "tabs"
  | .spaces => "spaces"

end IndentStyle

/-- Tabs and spaces separate words. -/
def isGap (c : Char) : Bool :=
  c == '\t' || c == ' '

/-- The number of tabs and spaces a line starts with. -/
def indentWidth (line : List Char) : Nat :=
  (line.takeWhile isGap).length

end EoJava.Text
