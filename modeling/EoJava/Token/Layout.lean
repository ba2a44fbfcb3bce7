import EoJava.Text.Units
import EoJava.Token.Reading

/-!
# Layout

Indentation is read against the blocks that are open. A line wider than the innermost block opens
one, a narrower line closes every block wider than itself, and its width must then be that of the
innermost block left. The first indented line sets the style of the file.
-/

namespace EoJava

/-- What the scanner knows at the start of a line: the style of the file, the widths of the open
blocks, innermost first, and the number of open parentheses. The outermost level, of width zero,
is always open and not listed. -/
structure Layout where
  style : Option Text.IndentStyle := none
  widths : List Nat := []
  depth : Nat := 0
deriving DecidableEq, Repr

namespace Layout

/-- The width of the innermost open block. -/
def top : List Nat → Nat
  | [] => 0
  | width :: _ => width

/-- The widths that a line may go back to, outermost first. -/
def levels (widths : List Nat) : List Nat :=
  0 :: widths.reverse

/-- The offset of the first character of leading whitespace that is not of the style of the
first. -/
def firstForeign? (style : Text.IndentStyle) (space : List Char) : Option Nat :=
  space.findIdx? fun c => Text.IndentStyle.ofChar? c != some style

/-- The style of the file after a line with the given leading whitespace. -/
def readStyle (layout : Layout) (line : Int) (space : List Char) :
    Reading (Option Text.IndentStyle) :=
  match space.head?.bind Text.IndentStyle.ofChar? with
  | none => pure layout.style
  | some found =>
    match firstForeign? found space with
    | some offset => .fail ⟨line, offset + 1⟩ (.mixedIndentation found)
    | none =>
      match layout.style with
      | none => pure (some found)
      | some expected =>
        if found = expected then pure (some expected)
        else .fail ⟨line, 1⟩ (.inconsistentIndentation expected found)

/-- Closes every open block wider than `width`. -/
def close (line : Int) (width : Nat) : List Nat → Reading (List Nat)
  | [] => pure []
  | top :: widths =>
    if width < top then do
      Reading.emit ⟨line, 1⟩ (.dedent widths.length)
      close line width widths
    else pure (top :: widths)

/-- The open blocks after a line of the given width. -/
def readWidth (line : Int) (width : Nat) (widths : List Nat) : Reading (List Nat) :=
  if top widths < width then do
    Reading.emit ⟨line, 1⟩ (.indent (widths.length + 1))
    pure (width :: widths)
  else do
    let remaining ← close line width widths
    if width = top remaining then pure remaining
    else .fail ⟨line, width + 1⟩ (.unmatchedUnindent width (levels widths))

/-- The layout after the leading whitespace of a line that starts outside parentheses. -/
def enter (layout : Layout) (line : Int) (text : List Char) : Reading Layout := do
  let style ← layout.readStyle line (text.takeWhile Text.isGap)
  let widths ← readWidth line (Text.indentWidth text) layout.widths
  pure { layout with style, widths }

end Layout

end EoJava
