import EoJava.Proofs.Build.Command

/-!
# Builds that are refused

The build command makes the output directory before it compiles. So it leaves no trace of an input
that does not compile if it prints its units or if the directory is there already, and only then
(`build_refused`). Otherwise directories were made, or the error says why they could not be made.
-/

namespace EoJava.Build.Workspace

variable {workspace prepared : Workspace} {request : Request} {bytes : List UInt8}
  {error : CompileError}

/-- A report starts with the name of the severity, which is that of an error. -/
theorem head?_report (d : Diagnostic) (source filename : String) :
    (d.report source filename).toList.head? = some 'e' := by
  rw [Diagnostic.report, String.intercalate_cons_of_ne_nil (List.cons_ne_nil _ _),
    Diagnostic.headline, Code.severity_eq_error]
  simp [Severity.label]

/-- What is said about an output that cannot be written is no report. -/
theorem ne_report_of_writeMessage (h : compileBytes bytes request.input = .error (.refused error))
    {problem : CodedError} {message : String}
    (hmessage : writeMessage (.failure (.error problem)) = .ok message) :
    message ≠ error.report := by
  rw [writeMessage_error, Except.ok.injEq] at hmessage
  have hsettles := settles_program request bytes
  rw [h] at hsettles
  cases hsettles with
  | @refused stage after d _ _ _ _ _ _ hreport =>
      intro hsame
      have hhead := head?_report d after.source after.filename
      rw [← Compilation.format, ← hreport, ← hsame, ← hmessage] at hhead
      simp [commandMessage] at hhead

/-- The output directory is made without a change exactly if it is there. -/
theorem prepare_unchanged_iff (hprint : request.print = false)
    (hprepare : request.prepare host workspace = (.ok (), prepared)) :
    (∀ place, prepared.disk.get? place = workspace.disk.get? place) ↔
      Path.isProper request.directory ∧
        workspace.disk.stat request.directory = .ok .directory := by
  obtain ⟨hproper, hstat, hgrows, -⟩ := grows_of_prepare hprint hprepare
  constructor
  · intro hsame
    have hkeeps : prepared.disk.Keeps workspace.disk :=
      ⟨hgrows.home.symm, fun place hplace => by rw [← hsame, hplace]⟩
    exact ⟨hproper, hkeeps.stat hstat⟩
  · rintro ⟨-, hthere⟩ place
    rw [prepare_directory hprint] at hprepare
    obtain ⟨-, disk, hmade, rfl⟩ := Disk.fileSystem_makeDirectories_eq_ok_iff.1 hprepare
    cases hmade.symm.trans (Disk.makeDirectories_of_stat hthere)
    rfl

/-- An output directory that cannot be made is not there, but directories on the way to it may have
been made. -/
theorem grows_of_unprepared {problem : CodedError} (hprint : request.print = false)
    (hprepare : request.prepare host workspace = (.error problem, prepared)) :
    ¬(Path.isProper request.directory ∧
        workspace.disk.stat request.directory = .ok .directory) ∧
      workspace.disk.Grows request.directory prepared.disk ∧
      prepared.printed = workspace.printed := by
  rw [prepare_directory hprint] at hprepare
  constructor
  · rintro ⟨hproper, hthere⟩
    cases hprepare.symm.trans (Disk.fileSystem_makeDirectories_eq_ok_iff.2
      ⟨hproper, _, Disk.makeDirectories_of_stat hthere, rfl⟩)
  · rw [Disk.fileSystem_makeDirectories] at hprepare
    split at hprepare
    · obtain ⟨-, rfl⟩ := Prod.mk.inj hprepare
      exact ⟨workspace.disk.grows_makeDirectories request.directory, rfl⟩
    · obtain ⟨-, rfl⟩ := Prod.mk.inj hprepare
      exact ⟨.refl _ _, rfl⟩

/-- A build whose input does not compile fails with one error. It prints nothing, says nothing else
and changes no file; directories may have been made on the way to the output directory. The error is
the report and no directory was made exactly if the units were to be printed or the output directory
was there already. -/
theorem build_refused
    (hread : host.files.read request.input workspace = (.ok bytes, workspace))
    (hrefused : compileBytes bytes request.input = .error (.refused error)) :
    ∃ message after, workspace.build request = (.ok 1, after) ∧
      after.remarks = workspace.remarks ++ [.error message] ∧
      after.printed = workspace.printed ∧
      workspace.disk.Grows request.directory after.disk ∧
      ((message = error.report ∧ ∀ place, after.disk.get? place = workspace.disk.get? place) ↔
        request.print = true ∨
          Path.isProper request.directory ∧
            workspace.disk.stat request.directory = .ok .directory) := by
  obtain ⟨code, after, hbuild, hruns⟩ := build_runs workspace request
  cases hruns with
  | unread hunread => cases hunread.symm.trans hread
  | unprepared _ hprepare hmessage =>
      -- Only a directory that is to be made can fail to be made.
      have hprint : request.print = false := by
        by_contra hprint
        cases hprepare.symm.trans (prepare_print (by simpa using hprint) workspace)
      obtain ⟨hunready, hgrows, hprinted⟩ := grows_of_unprepared hprint hprepare
      refine ⟨_, _, hbuild, congrArg (· ++ _) (remarks_of_prepare hprepare), hprinted, hgrows,
        iff_of_false (fun h => ne_report_of_writeMessage hrefused hmessage h.1) ?_⟩
      rintro (hprinting | hready)
      · rw [hprint] at hprinting
        cases hprinting
      · exact hunready hready
  | @stopped found problem prepared after hfound hprepare hcompile =>
      cases hfound.symm.trans hread
      cases hcompile.symm.trans (compile_of_refused hrefused _ prepared)
      refine ⟨error.report, _, hbuild, congrArg (· ++ _) (remarks_of_prepare hprepare), ?_⟩
      cases hprint : request.print with
      | true =>
          cases hprepare.symm.trans (prepare_print hprint workspace)
          exact ⟨rfl, .refl _ _, iff_of_true ⟨rfl, fun _ => rfl⟩ (.inl rfl)⟩
      | false =>
          obtain ⟨-, -, hgrows, hprepared⟩ := grows_of_prepare hprint hprepare
          have hprinted : prepared.printed = workspace.printed := by rw [hprepared]
          refine ⟨hprinted, hgrows, ?_⟩
          have hunchanged := prepare_unchanged_iff hprint hprepare
          simpa [said] using hunchanged
  | completed hfound hprepare hcompile =>
      cases hfound.symm.trans hread
      cases hcompile.symm.trans (compile_of_refused hrefused _ _)

/-- A workspace with one file, in which there is prose. -/
def ofProse : Workspace :=
  { disk := Disk.plant {} "a.eo" (.file (Text.Utf8.encode "prose\n")) }

theorem read_ofProse :
    host.files.read "a.eo" ofProse = (.ok (Text.Utf8.encode "prose\n"), ofProse) := by
  rw [files_host, Disk.fileSystem_read]
  exact congrArg (·, ofProse) (by decide +kernel)

theorem exists_refused_prose :
    ∃ error, compileBytes (Text.Utf8.encode "prose\n") "a.eo" = .error (.refused error) := by
  have hnone : (compileBytes (Text.Utf8.encode "prose\n") "a.eo").toOption = none := by
    decide +kernel
  obtain hrefused | ⟨units, hunits⟩ :=
    compileBytes_cases { input := "a.eo" } (Text.Utf8.encode "prose\n")
  · exact hrefused
  · rw [show compileBytes _ "a.eo" = .ok units from hunits] at hnone
    cases hnone

/-- Prose leaves no trace where units were to be printed. -/
theorem build_refused_print :
    let request : Request := { input := "a.eo", output := some "out", print := true }
    ∃ error after, compileBytes (Text.Utf8.encode "prose\n") "a.eo" = .error (.refused error) ∧
      ofProse.build request = (.ok 1, after) ∧ after.remarks = [.error error.report] ∧
      after.printed = "" ∧ ∀ place, after.disk.get? place = ofProse.disk.get? place := by
  intro request
  obtain ⟨error, hrefused⟩ := exists_refused_prose
  obtain ⟨message, after, hbuild, hremarks, hprinted, -, hiff⟩ :=
    build_refused (show host.files.read request.input ofProse = _ from read_ofProse) hrefused
  obtain ⟨rfl, hsame⟩ := hiff.2 (.inl rfl)
  exact ⟨error, after, hrefused, hbuild, hremarks, hprinted, hsame⟩

/-- Prose leaves a directory where units were to be written. -/
theorem build_refused_directory :
    let request : Request := { input := "a.eo", output := some "out" }
    (∃ error, compileBytes (Text.Utf8.encode "prose\n") "a.eo" = .error (.refused error)) ∧
      host.files.read "a.eo" ofProse = (.ok (Text.Utf8.encode "prose\n"), ofProse) ∧
      ofProse.disk.get? ["out"] = none ∧
      (ofProse.build request).2.disk.get? ["out"] = some .directory :=
  ⟨exists_refused_prose, read_ofProse, by decide +kernel, by decide +kernel⟩

end EoJava.Build.Workspace
