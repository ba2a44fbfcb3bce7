import EoJava.Diagnostic.Report
import EoJava.Proofs.Diagnostic.Unbroken

/-!
# Pictures of a place

A report is a picture of the place of its diagnostic: the source line in a gutter with its number,
and below it a caret that stands as far from the left as the place does. The picture has seven
lines, whatever the number of the line, if the diagnostic is unbroken and its place is in the source
(`Diagnostic.pictured_report`).
-/

namespace EoJava

/-! ## Places -/

/-- A position in lines, counted from a number, splits one of them: it is where what stands `before`
it ends. -/
def Position.Splits (position : Position) (number : Int) (lines : List (List Char))
    (before rest : List Char) : Prop :=
  ∃ i : Nat, lines[i]? = some (before ++ rest) ∧ position = ⟨number + i, Text.width before + 1⟩

/-- A position that splits a line of a source is on one of its lines, at most one unit past the end
of that line. -/
theorem Position.Splits.bounds {position : Position} {lines : List (List Char)}
    {before rest : List Char} (h : position.Splits 1 lines before rest) :
    1 ≤ position.line ∧ position.line ≤ lines.length ∧ 1 ≤ position.column ∧
      position.column ≤ Text.width (before ++ rest) + 1 := by
  obtain ⟨i, hline, rfl⟩ := h
  obtain ⟨hi, -⟩ := List.getElem?_eq_some_iff.1 hline
  rw [Text.width_append]
  refine ⟨?_, ?_, ?_, ?_⟩ <;> dsimp only <;> omega

/-- The line that a position splits is the line of the source with its number. -/
theorem Position.Splits.sourceLine? {position : Position} {source : String}
    {before rest : List Char} (h : position.Splits 1 (Text.lines source.toList) before rest) :
    EoJava.sourceLine? source position.line = some (String.ofList (before ++ rest)) := by
  obtain ⟨i, hline, rfl⟩ := h
  have hindex : ((1 : Int) + i - 1).toNat = i := by omega
  rw [EoJava.sourceLine?, if_pos (by dsimp only; omega), hindex, hline]
  rfl

/-! ## Reports -/

namespace Diagnostic

/-- A report is a picture of the place of a diagnostic, where a source line is split in two. The
gutter before the source line shows its number, the margin is the gutter without it, and the caret
comes after blanks that are as wide as what stands before the place. -/
structure Pictured (d : Diagnostic) (filename : String) (before rest : List Char) (report : String)
    (gutter margin blank : List Char) : Prop where
  lines : Text.splitLines report.toList =
    [("error[" ++ d.code.text ++ "]: " ++ d.message).toList,
      ("  --> " ++ filename ++ ":" ++ Whole.display d.position.line ++ ":" ++
        Whole.display d.position.column).toList,
      margin, gutter ++ (before ++ rest), blank ++ ['^'], margin,
      ("   = help: " ++ d.suggestion).toList]
  gutter_eq : gutter = (" " ++ Whole.display d.position.line ++ " | ").toList
  margin_eq : margin =
    ' ' :: (List.replicate (Whole.display d.position.line).length ' ' ++ " | ".toList)
  blank_eq : blank = margin ++ List.replicate (Text.width before) ' '
  aligned : Text.width blank = Text.width (gutter ++ before)

variable {d : Diagnostic} {source filename : String} {before rest : List Char}

/-- No line of a report is broken in two. -/
theorem unbroken_lines (hunbroken : d.Unbroken) (hname : Text.Unbroken filename.toList)
    {line : String} (hline : Text.Unbroken line.toList) :
    ∀ text ∈ d.headline :: d.place filename :: d.extract line, Text.Unbroken text.toList := by
  have hblanks (n : Nat) : Text.Unbroken (List.replicate n ' ') :=
    (Text.narrow_replicate (by decide) n).unbroken
  have hcode : Text.Unbroken d.code.text.toList := by
    cases d.code <;> decide +kernel
  simp [headline, place, extract, gutter, caret, Code.severity_eq_error, Severity.label, hblanks,
    hcode, hname, hline, hunbroken.message, hunbroken.suggestion]

/-- The report of an unbroken diagnostic is a picture of its place. -/
theorem pictured_report (hunbroken : d.Unbroken) (hname : Text.Unbroken filename.toList)
    (hplace : d.position.Splits 1 (Text.lines source.toList) before rest) :
    ∃ gutter margin blank,
      d.Pictured filename before rest (d.report source filename) gutter margin blank := by
  have hnumber := (Whole.narrow_display d.position.line).width
  have hline := hplace.sourceLine?
  obtain ⟨i, hsplit, hposition⟩ := hplace
  have hcolumn : (d.position.column - 1).toNat = Text.width before := by
    rw [hposition]
    dsimp only
    omega
  have hunbrokenLine : Text.Unbroken (String.ofList (before ++ rest)).toList := by
    rw [String.toList_ofList]
    exact Text.unbroken_of_mem_lines (List.mem_of_getElem? hsplit)
  refine ⟨_, _, _, ?_, rfl, rfl, rfl, ?_⟩
  · rw [report, hline]
    refine (Text.splitLines_intercalate (List.cons_ne_nil _ _)
      (unbroken_lines hunbroken hname hunbrokenLine)).trans ?_
    simp [headline, place, extract, gutter, caret, hcolumn, Code.severity_eq_error, Severity.label]
  · have hspaces (n : Nat) : Text.width (List.replicate n ' ') = n := by
      rw [(Text.narrow_replicate (by decide) n).width, List.length_replicate]
    have hspace : Text.width " ".toList = Text.units ' ' := by decide +kernel
    simp only [String.toList_append, List.cons_append, Text.width_cons, Text.width_append, hspaces,
      hnumber, hspace, String.length_toList]
    omega

end Diagnostic

end EoJava
