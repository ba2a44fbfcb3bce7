import EoJava.Text.Blank
import EoJava.Text.Lines
import EoJava.Token.Layout
import EoJava.Token.Lexing
import EoJava.Token.StringTable

/-!
# Scanning

A source is read line by line. A line that holds nothing has no lexemes. Any other line that starts
outside parentheses first settles the layout; then come its own lexemes; and if it also ends
outside parentheses, the end of the line is a lexeme too. At the end of the source every open block
is closed. The first problem ends the scan.
-/

namespace EoJava.Scan

open Text (Cursor)

/-- The lexemes from a cursor to the end of its line or to a comment, given the number of open
parentheses. The result is the number open after them. -/
def content (line : Int) (depth : Nat) (cursor : Cursor) : Reading Nat :=
  match _left : cursor.rest with
  | [] => pure depth
  | c :: rest =>
    if Text.isGap c then content line depth ⟨rest, cursor.offset + 1⟩
    else if c = '#' then pure depth
    else
      match _met : Lexing.next? c rest cursor.offset with
      | .ok (lexeme, after) => do
        Reading.emit ⟨line, cursor.offset + 1⟩ lexeme
        content line (lexeme.depthAfter depth) after
      | .error (offset, problem) => .fail ⟨line, offset + 1⟩ problem
termination_by cursor.rest.length
decreasing_by
  · simp [_left]
  · have := Lexing.length_of_next? _met
    simp [_left]
    omega

/-- The lexemes of a line. -/
def line (number : Int) (layout : Layout) (text : List Char) : Reading Layout :=
  if Text.holdsNothing text then pure layout
  else do
    let layout ← if layout.depth = 0 then layout.enter number text else pure layout
    let depth ← content number layout.depth (.start text)
    if depth = 0 then Reading.emit ⟨number, Text.width text + 1⟩ .newline
    pure { layout with depth }

/-- The lexemes of a run of lines, the first of which has the given number. The result is the
number of the last line and the layout after it. -/
def lines (number : Int) (layout : Layout) : List (List Char) → Reading (Int × Layout)
  | [] => pure (number - 1, layout)
  | text :: rest => do
    let layout ← line number layout text
    lines (number + 1) layout rest

/-- The lexemes that close every open block. -/
def closeAll (number : Int) : List Nat → Reading Unit
  | [] => pure ()
  | _ :: widths => do
    Reading.emit ⟨number, 1⟩ (.dedent widths.length)
    closeAll number widths

/-- The lexemes of a source. -/
def source (text : List Char) : Reading Unit := do
  let (last, layout) ← lines 1 {} (Text.lines (Text.dropMark text))
  closeAll last layout.widths
  Reading.emit ⟨last, 1⟩ .endOfInput

end EoJava.Scan
