import EoJava.Diagnostic.Basic
import EoJava.Text.Lines

/-!
# Reports

A report is the text that shows a diagnostic to a reader: a headline, the place, and, if the source
has that line, the line in a gutter with a caret under the column and the suggestion below.
-/

namespace EoJava

/-- The line of a source with a given number, counted from one. -/
def sourceLine? (source : String) (number : Int) : Option String :=
  if 1 ≤ number then ((Text.lines source.toList)[(number - 1).toNat]?).map String.ofList
  else none

namespace Diagnostic

/-- The first line of a report. -/
def headline (d : Diagnostic) : String :=
  d.code.severity.label ++ "[" ++ d.code.text ++ "]: " ++ d.message

/-- The line of a report that names the place. -/
def place (d : Diagnostic) (filename : String) : String :=
  "  --> " ++ filename ++ ":" ++ Whole.display d.position.line ++ ":" ++
    Whole.display d.position.column

/-- The gutter of a report, with a line number or with blanks of the same width in it. -/
def gutter (shown : String) : String :=
  " " ++ shown ++ " | "

/-- The text that puts a caret under a column. -/
def caret (column : Int) : String :=
  String.ofList (List.replicate (column - 1).toNat ' ' ++ ['^'])

/-- The lines of a report that show a source line and the suggestion. -/
def extract (d : Diagnostic) (line : String) : List String :=
  let number := Whole.display d.position.line
  let margin := gutter (String.ofList (List.replicate number.length ' '))
  [margin, gutter number ++ line, margin ++ caret d.position.column, margin,
    "   = help: " ++ d.suggestion]

/-- The report of a diagnostic. -/
def report (d : Diagnostic) (source filename : String) : String :=
  let body :=
    match sourceLine? source d.position.line with
    | some line => d.extract line
    | none => []
  "\n".intercalate (d.headline :: d.place filename :: body)

end Diagnostic

end EoJava
