import EoJava.Diagnostic.Problem

/-!
# Java text

Text is written line by line, four spaces deeper in each open block. A blank line separates members:
it is never first in a block and never follows another. Text is complete once every block has been
closed.
-/

namespace EoJava.Java

/-- Lines written so far, and the number of open blocks. -/
structure Writer where
  lines : List String := []
  depth : Nat := 0
deriving DecidableEq, Repr

namespace Writer

/-- The spaces before a line in `depth` blocks. -/
def indentation (depth : Nat) : String :=
  String.ofList (List.replicate (4 * depth) ' ')

/-- Writes a line. -/
def line (writer : Writer) (text : String) : Writer :=
  { writer with lines := writer.lines ++ [indentation writer.depth ++ text] }

/-- Writes a blank line, unless none may stand here. -/
def blank (writer : Writer) : Writer :=
  match writer.lines.getLast? with
  | none => writer
  | some last =>
    if last = "" || last.toList.getLast? == some '\x7b' then writer
    else { writer with lines := writer.lines ++ [""] }

/-- Opens a block. -/
def openBlock (writer : Writer) (header : String) : Writer :=
  let writer := writer.line (header ++ " \x7b")
  { writer with depth := writer.depth + 1 }

/-- Closes the innermost block. -/
def closeBlock (writer : Writer) : Except Breakdown Writer :=
  match writer.depth with
  | 0 => .error .unmatchedClose
  | depth + 1 => .ok ({ writer with depth }.line "\x7d")

/-- The complete text. -/
def text (writer : Writer) : Except Breakdown String :=
  if writer.depth = 0 then .ok ("\n".intercalate writer.lines ++ "\n")
  else .error (.openBlocks writer.depth)

/-- Writes lines in a block of their own. -/
def block (writer : Writer) (header : String) (body : List String) : Except Breakdown Writer :=
  (body.foldl line (writer.openBlock header)).closeBlock

end Writer

end EoJava.Java
