import EoJava.Proofs.Compilation.Reported

/-!
# Sources with one scan

After the scan no stage looks at the source (`Completes.withSource`, `FailsAt.withSource`). So two
sources in which the same is met compile to the same units, or both are refused with the same
diagnostic, which each report shows in its own source (`compile_cases_of_scan`).
-/

namespace EoJava

namespace Compilation

/-- A compilation of another source, of which the same has been made. -/
def withSource (c : Compilation) (source : String) : Compilation :=
  { c with source }

variable {c after : Compilation} {succeeded : Bool} {source : String}

/-- The same lexemes are stored, and the same problem is reported. -/
theorem tokenize_withSource (hscan : Scan.source source.toList = Scan.source c.source.toList)
    (h : c.tokenize = (succeeded, after)) :
    (c.withSource source).tokenize = (succeeded, after.withSource source) := by
  have hstored : (Scan.source c.source.toList).lexemes.foldl addLexeme (c.withSource source) =
      ((Scan.source c.source.toList).lexemes.foldl addLexeme c).withSource source :=
    List.foldl_hom (fun c : Compilation => c.withSource source) fun _ _ => rfl
  have hscan' : Scan.source (c.withSource source).source.toList = Scan.source c.source.toList :=
    hscan
  simp only [tokenize] at h
  obtain ⟨rfl, rfl⟩ := Prod.ext_iff.1 h
  simp only [tokenize, hscan', hstored]
  split <;> rfl

theorem reportAtToken_withSource (source : String) {code : Code} {id : Int}
    {arguments : Option Arguments} (h : c.reportAtToken code id arguments = .ok after) :
    (c.withSource source).reportAtToken code id arguments = .ok (after.withSource source) := by
  obtain ⟨token, htoken, h⟩ := exists_of_bind_eq_ok h
  cases h
  have htoken' : (c.withSource source).token id = .ok token := htoken
  rw [reportAtToken, htoken']
  rfl

theorem parse_withSource (source : String) (h : c.parse = .ok (succeeded, after)) :
    (c.withSource source).parse = .ok (succeeded, after.withSource source) := by
  obtain ⟨refused | decls, hparse, h⟩ := exists_of_bind_eq_ok h
  · obtain ⟨reported, hreported, h⟩ := exists_of_bind_eq_ok h
    cases h
    have hparse' : Grammar.parse (c.withSource source).strings (c.withSource source).tokens =
        .ok (.error refused) := hparse
    rw [parse, hparse', ok_bind]
    dsimp only
    rw [reportAtToken_withSource source hreported]
    rfl
  · cases h
    exact parse_of_declarations hparse

theorem classify_withSource (source : String) (h : c.classify = (succeeded, after)) :
    (c.withSource source).classify = (succeeded, after.withSource source) := by
  simp only [classify, withSource] at h ⊢
  split at h <;>
  · cases h
    rfl

theorem emit_withSource (source : String) {units? : Option (List JavaUnit)}
    (h : c.emit = .ok (units?, after)) :
    (c.withSource source).emit = .ok (units?, after.withSource source) := by
  obtain ⟨⟨bound, problem | units⟩, hemit, h⟩ := exists_of_bind_eq_ok h
  · cases h
    simp only [emit, withSource, hemit, ok_bind]
    rfl
  · cases h
    simp only [emit, withSource, hemit, ok_bind]
    rfl

/-- A compilation completes on any source in which the same is met. -/
theorem Completes.withSource {units : List JavaUnit}
    (hscan : Scan.source source.toList = Scan.source c.source.toList)
    (h : c.Completes after units) :
    (c.withSource source).Completes (after.withSource source) units := by
  obtain ⟨hread, hparsed, hshaped, hafter⟩ := h
  exact ⟨tokenize_withSource hscan hread, parse_withSource source hparsed,
    classify_withSource source hshaped, emit_withSource source hafter⟩

/-- A compilation fails at the same stage on any source in which the same is met. -/
theorem FailsAt.withSource {stage : Stage}
    (hscan : Scan.source source.toList = Scan.source c.source.toList) (h : c.FailsAt stage after) :
    (c.withSource source).FailsAt stage (after.withSource source) := by
  cases h with
  | lex hafter => exact .lex (tokenize_withSource hscan hafter)
  | parse hread hafter =>
      exact .parse (tokenize_withSource hscan hread) (parse_withSource source hafter)
  | classify hread hparsed hafter =>
      exact .classify (tokenize_withSource hscan hread) (parse_withSource source hparsed)
        (classify_withSource source hafter)
  | expression hread hparsed hshaped hafter =>
      exact .expression (tokenize_withSource hscan hread) (parse_withSource source hparsed)
        (classify_withSource source hshaped) (emit_withSource source hafter)

/-- A fresh compilation that fails with one diagnostic is refused with it and its report. -/
theorem run_of_diagnostic {stage : Stage} {d : Diagnostic} (h : c.FailsAt stage after)
    (hone : after.diagnostics = [d]) :
    c.run.2 = .error (.refused { diagnostic := d, report := d.report c.source c.filename }) := by
  obtain ⟨hsource, hfilename⟩ := h.sameSource
  rw [run_of_failsAt h, stop_of_diagnostics hone, format, hsource, hfilename]

/-- Runs on two sources in which the same is met give the same units, or both are refused with one
diagnostic. -/
theorem run_cases_of_scan (hfresh : c.Fresh)
    (hscan : Scan.source source.toList = Scan.source c.source.toList) :
    (∃ units, c.run.2 = .ok units ∧ (c.withSource source).run.2 = .ok units) ∨
      ∃ d : Diagnostic,
        c.run.2 =
            .error (.refused { diagnostic := d, report := d.report c.source c.filename }) ∧
          (c.withSource source).run.2 =
            .error (.refused { diagnostic := d, report := d.report source c.filename }) := by
  obtain ⟨after, units, hcompletes, -⟩ | ⟨stage, after, d, hfails, hone, -⟩ :=
    completes_or_fails hfresh
  · refine .inl ⟨units, ?_, ?_⟩
    · rw [run_of_completes hcompletes]
    · rw [run_of_completes (hcompletes.withSource hscan)]
  · exact .inr ⟨d, run_of_diagnostic hfails hone, run_of_diagnostic (hfails.withSource hscan) hone⟩

end Compilation

/-- Two sources in which the same is met compile to the same units, or they are refused with the
same diagnostic, each with the report that shows it in the source. -/
theorem compile_cases_of_scan (filename : String) {source other : String}
    (h : Scan.source other.toList = Scan.source source.toList) :
    (∃ units, compile source filename = .ok units ∧ compile other filename = .ok units) ∨
      ∃ d : Diagnostic,
        compile source filename =
            .error (.refused { diagnostic := d, report := d.report source filename }) ∧
          compile other filename =
            .error (.refused { diagnostic := d, report := d.report other filename }) :=
  Compilation.run_cases_of_scan (c := { source, filename }) ⟨rfl, rfl⟩ h

end EoJava
