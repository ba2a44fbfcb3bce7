import EoJava.Proofs.Compilation.Rescanned
import EoJava.Proofs.Text.LineEnds

/-!
# Line ends of a source

A source that is written with a carriage return before every line feed compiles to what it compiles
to without them, its report included (`compile_withReturns`).
-/

namespace EoJava

/-- Sources with the same lines are shown in the same way. -/
theorem Diagnostic.report_congr {source other : String}
    (h : Text.lines other.toList = Text.lines source.toList) (d : Diagnostic) (filename : String) :
    d.report other filename = d.report source filename := by
  rw [report, report, sourceLine?, sourceLine?, h]

/-- The same is met in a source with a carriage return before every line feed. -/
theorem Scan.source_withReturns {text : List Char} (h : ¬ ['\r', '\n'] <:+: text) :
    Scan.source (Text.withReturns text) = Scan.source text := by
  have hmark : ¬ ['\r', '\n'] <:+: Text.dropMark text := fun hpair =>
    h (hpair.trans (Text.dropMark_suffix text).isInfix)
  rw [source_eq_rest, source_eq_rest, Text.dropMark_withReturns, Text.lines_withReturns hmark]

/-- Let no carriage return of a source stand before a line feed. With one before every line feed,
the source compiles to the same units, or it is refused with the same error and the same report. -/
theorem compile_withReturns (filename : String) {source : String}
    (h : ¬ ['\r', '\n'] <:+: source.toList) :
    compile (String.ofList (Text.withReturns source.toList)) filename =
      compile source filename := by
  let other := String.ofList (Text.withReturns source.toList)
  have hother : other.toList = Text.withReturns source.toList := String.toList_ofList
  have hscan : Scan.source other.toList = Scan.source source.toList := by
    rw [hother, Scan.source_withReturns h]
  have hlines : Text.lines other.toList = Text.lines source.toList := by
    rw [hother, Text.lines_withReturns h]
  obtain ⟨units, hunits, hunits'⟩ | ⟨d, hrefused, hrefused'⟩ :=
    compile_cases_of_scan filename hscan
  · rw [hunits, hunits']
  · rw [hrefused, hrefused', d.report_congr hlines]

/-- A carriage return within a line is refused where it stands, whatever the lines end with. -/
theorem compile_withReturns_lone :
    let source := "object A:\n  T\r@x\n"
    String.ofList (Text.withReturns source.toList) = "object A:\r\n  T\r@x\r\n" ∧
      ∃ error, compile "object A:\r\n  T\r@x\r\n" "a.eo" = .error (.refused error) ∧
        compile source "a.eo" = .error (.refused error) ∧
        error.code = .unknownCharacter ∧ error.position = ⟨2, 4⟩ := by
  intro source
  have hpairs : ¬ ['\r', '\n'] <:+: source.toList := by decide +kernel
  have hreturns : String.ofList (Text.withReturns source.toList) = "object A:\r\n  T\r@x\r\n" := by
    decide +kernel
  have hsame := compile_withReturns "a.eo" hpairs
  rw [hreturns] at hsame
  have hrefused : (match compile source "a.eo" with
      | .error (.refused error) => some (error.code, error.position)
      | _ => none) = some (.unknownCharacter, ⟨2, 4⟩) := by decide +kernel
  refine ⟨hreturns, ?_⟩
  split at hrefused
  · next error herror =>
      obtain ⟨hcode, hposition⟩ := Prod.ext_iff.1 (Option.some.inj hrefused)
      exact ⟨error, hsame.trans herror, herror, hcode, hposition⟩
  · cases hrefused

end EoJava
