import EoJava.Build.Workspace
import EoJava.Proofs.Delivery.Directory

/-!
# Runs of the build command

A run of the build command ends at the first thing that fails, with one error, or it gets to the end
and says which files it wrote (`build_runs`). What it says is what happened: a success line names
the file in which a unit is found, and without an error all units were printed or written
(`build_reports`).
-/

namespace EoJava.Build

variable {workspace prepared after : Workspace} {request : Request}

/-- The directory that units are written to. -/
def Request.directory (request : Request) : String :=
  request.output.getD "."

/-- The program that a request compiles. -/
def Request.program (request : Request) (bytes : List UInt8) : Program :=
  { source := Text.Utf8.decodeText bytes, filename := request.input }

/-- The lines that say which files were written. -/
def Request.announcements (request : Request) (units : List JavaUnit) : List Remark :=
  if request.quiet || request.print then []
  else units.map fun unit => .success ("Wrote " ++ outputPath request.output unit.name)

/-- Announcements are no errors. -/
theorem Request.error_notMem_announcements (request : Request) (units : List JavaUnit)
    (message : String) : Remark.error message ∉ request.announcements units := by
  unfold announcements
  split
  · simp
  · simp

namespace Workspace

/-- The disk of a workspace can be replaced and found again. -/
theorem lawful_diskField : diskField.Lawful :=
  ⟨fun _ _ => rfl, fun _ => rfl, fun _ _ _ => rfl⟩

/-- The files of a workspace are those of its disk. -/
theorem files_host : host.files = Disk.fileSystem diskField :=
  rfl

/-- A workspace in which some more lines were said. -/
def said (workspace : Workspace) (remarks : List Remark) : Workspace :=
  { workspace with remarks := workspace.remarks ++ remarks }

theorem said_nil (workspace : Workspace) : workspace.said [] = workspace := by
  rw [said, List.append_nil]

/-- Remarks are appended to those that were made. -/
theorem said_said (workspace : Workspace) (first second : List Remark) :
    (workspace.said first).said second = workspace.said (first ++ second) := by
  rw [said, said, said, List.append_assoc]

/-- Announcing units adds one remark for each of them, unless the build is quiet. -/
theorem announce_apply (request : Request) (units : List JavaUnit) (workspace : Workspace) :
    request.announce host units workspace = ((), workspace.said (request.announcements units)) := by
  induction units generalizing workspace with
  | nil =>
      have hnone : request.announcements [] = [] := by
        unfold Request.announcements
        split <;> rfl
      rw [hnone, said_nil]
      rfl
  | cons unit units ih =>
      unfold Request.announcements at ih ⊢
      unfold Request.announce
      split
      · next hsilent =>
          simp only [hsilent] at ih
          exact ih workspace
      · next hloud =>
          simp only [hloud] at ih
          rw [List.map_cons, List.singleton_append.symm, ← said_said]
          exact ih _

/-! ## Steps -/

/-- To print units, nothing is prepared. -/
theorem prepare_print (h : request.print) (workspace : Workspace) :
    request.prepare host workspace = (.ok (), workspace) := by
  rw [Request.prepare, if_pos h]
  rfl

/-- To write units, their directory is made. -/
theorem prepare_directory (h : request.print = false) (workspace : Workspace) :
    request.prepare host workspace =
      (Disk.fileSystem diskField).makeDirectories .reached request.directory workspace := by
  rw [Request.prepare, if_neg (by simp [h])]
  rfl

/-- The resolver that has every unit printed. -/
def printing : Resolver (StateM Workspace) := fun _ => pure (.ok host.printer)

/-- Units that are to be printed go to the printer. -/
theorem target_print (h : request.print) : request.target host = .resolver printing :=
  if_pos h

/-- Units that are not to be printed go to the directory. -/
theorem target_directory (h : request.print = false) :
    request.target host = .directory request.directory :=
  if_neg (by simp [h])

/-- Once the output directory is made, nothing is different but directories on the way to it. -/
theorem grows_of_prepare (h : request.print = false)
    (hprepare : request.prepare host workspace = (.ok (), prepared)) :
    Path.isProper request.directory ∧ prepared.disk.stat request.directory = .ok .directory ∧
      workspace.disk.Grows request.directory prepared.disk ∧
      prepared = { workspace with disk := prepared.disk } := by
  rw [prepare_directory h] at hprepare
  obtain ⟨hproper, disk, hmade, rfl⟩ := Disk.fileSystem_makeDirectories_eq_ok_iff.1 hprepare
  have hgrows := workspace.disk.grows_makeDirectories request.directory
  have hmade' : workspace.disk.makeDirectories request.directory = (.ok (), disk) := hmade
  rw [hmade'] at hgrows
  exact ⟨hproper, Disk.stat_of_makeDirectories hmade', hgrows, rfl⟩

/-- Units are printed one after the other. -/
theorem deliver_printing (c : Compilation) (units : List (Located JavaUnit))
    (workspace : Workspace) :
    deliver c printing units workspace = (.ok (), { workspace with
      printed := workspace.printed ++ String.join (units.map (·.value.text)) }) := by
  induction units generalizing workspace with
  | nil =>
      have hdone : deliver c printing [] workspace = (.ok (), workspace) := rfl
      simp [hdone]
  | cons unit units ih =>
      have hunit : deliverUnit printing unit.value workspace =
        (.ok (), { workspace with printed := workspace.printed ++ unit.value.text }) := rfl
      rw [deliver_cons_apply, hunit]
      simp only [ih]
      simp [String.append_assoc]

variable {bytes : List UInt8} {units : List JavaUnit}

/-- What the bytes of an input compile to is what settles the compilation of its program. -/
theorem settles_program (request : Request) (bytes : List UInt8) :
    (request.program bytes).start.Settles (compileBytes bytes request.input) :=
  (compile_settles request.input).2 bytes

/-- A source compiles or is refused; nothing else happens to it. -/
theorem compileBytes_cases (request : Request) (bytes : List UInt8) :
    (∃ error, compileBytes bytes request.input = .error (.refused error)) ∨
      ∃ units, compileBytes bytes request.input = .ok units := by
  have hsettles := settles_program request bytes
  generalize compileBytes bytes request.input = outcome at hsettles ⊢
  cases hsettles with
  | units => exact .inr ⟨_, rfl⟩
  | refused => exact .inl ⟨_, rfl⟩

/-- A program that does not compile is stopped before anything else is done. -/
theorem compile_of_refused {error : CompileError}
    (h : compileBytes bytes request.input = .error (.refused error))
    (target : Target (StateM Workspace)) (workspace : Workspace) :
    (request.program bytes).compile host.files target workspace =
      (.error (.refused error), workspace) := by
  have hsettles := settles_program request bytes
  rw [h] at hsettles
  cases hsettles with
  | refused hrun => rw [Program.compile_of_stop hrun]

/-- A source that compiles completes all stages, and none reports anything. -/
theorem completes_of_compileBytes (h : compileBytes bytes request.input = .ok units) :
    ∃ after, (request.program bytes).start.Completes after units ∧ after.diagnostics = [] := by
  have hsettles := settles_program request bytes
  rw [h] at hsettles
  obtain ⟨-, hcompletes, hnone⟩ := hsettles
  exact ⟨_, hcompletes, hnone⟩

/-- The units of a program that is to be printed are printed. -/
theorem compile_printing (h : compileBytes bytes request.input = .ok units)
    (workspace : Workspace) :
    (request.program bytes).compile host.files (.resolver printing) workspace =
      (.ok units, { workspace with
        printed := workspace.printed ++ String.join (units.map JavaUnit.text) }) := by
  obtain ⟨after, hcompletes, -⟩ := completes_of_compileBytes h
  have htexts : (locateUnits after units).map (·.value.text) = units.map JavaUnit.text := by
    have hvalues := congrArg (List.map JavaUnit.text) (Compilation.values_locateUnits after units)
    rwa [List.map_map] at hvalues
  rw [Program.compile_of_run (Compilation.run_of_completes hcompletes)
    (Target.resolve_resolver printing), deliver_printing, htexts]

/-- How many units were written to the output directory, and where the command stopped if it did. -/
structure Wrote (workspace : Workspace) (request : Request) (units : List JavaUnit) (k : Nat)
    (after : Workspace) : Prop where
  le : k ≤ units.length
  /-- The first `k` units are in their files, and nothing else has changed. -/
  receives : workspace.disk.Receives request.directory (units.take k) after.disk
  /-- The unit after them cannot be written. -/
  unwritable : ∀ unit, units[k]? = some unit →
    (host.files.write (outputPath request.output unit.name) unit.text after).1 ≠ .ok ()
  /-- The files of that unit and of later ones are as they were. -/
  later : ∀ unit ∈ units.drop k, ∀ bytes,
    after.disk.get? (workspace.disk.goal (outputPath request.output unit.name)) =
        some (.file bytes) ↔
      workspace.disk.get? (workspace.disk.goal (outputPath request.output unit.name)) =
        some (.file bytes)

/-- Remarks do not change what was written. -/
theorem Wrote.said {k : Nat} (h : workspace.Wrote request units k after) (remarks : List Remark) :
    workspace.Wrote request units k (after.said remarks) := by
  refine ⟨h.le, h.receives, fun unit hunit hwritten => h.unwritable unit hunit ?_, h.later⟩
  rw [files_host, Disk.fileSystem_write_eq_ok_iff] at hwritten ⊢
  exact hwritten

/-- Files that are not written are as they were, since directories are made only where there was
nothing. -/
theorem file_iff_of_receives {disk later : Disk} {directory : String}
    (h : disk.Receives directory units later) {place : Place}
    (hplace : ∀ unit ∈ units, place ≠ disk.goal directory ++ [javaFileName unit.name])
    (bytes : List UInt8) :
    later.get? place = some (.file bytes) ↔ disk.get? place = some (.file bytes) := by
  rcases h.other place hplace with hsame | ⟨hnone, hdirectory, -⟩
  · rw [hsame]
  · simp [hnone, hdirectory]

/-- The units of a program are written to the output directory once it is made, up to the first that
cannot be written. -/
theorem compile_wrote (hprint : request.print = false)
    (h : compileBytes bytes request.input = .ok units)
    (hprepare : request.prepare host workspace = (.ok (), prepared)) :
    ∃ k result after, (request.program bytes).compile host.files (request.target host) prepared =
        (result, after) ∧
      workspace.Wrote request units k after ∧ after.printed = workspace.printed ∧
      after.remarks = workspace.remarks ∧
      (k = units.length ∧ result = .ok units ∨
        k < units.length ∧ ∃ error, result = .error (.refused error)) := by
  obtain ⟨found, hcompletes, hnone⟩ := completes_of_compileBytes h
  obtain ⟨decls, hcompiles⟩ := Compilation.compiles_of_completes ⟨rfl, rfl⟩ hcompletes
  obtain ⟨hproper, hstat, hgrows, hprepared⟩ := grows_of_prepare hprint hprepare
  obtain ⟨_, k, result, final, -, -, hcompile, later, rfl, hstores, hend⟩ :=
    Program.compile_directory lawful_diskField hcompletes hnone hproper hstat
  have hreceives := hstores.receives hgrows hstat fun unit hunit =>
    hcompiles.isIdentifier unit (List.mem_of_mem_take hunit)
  have hpaths : ∀ unit ∈ units, workspace.disk.goal (unit.path request.directory) =
      workspace.disk.goal request.directory ++ [javaFileName unit.name] := fun unit hunit =>
    workspace.disk.goal_path request.directory (hcompiles.isIdentifier unit hunit)
  have hapart := workspace.disk.nodup_goals request.directory hcompiles.isIdentifier
    hcompiles.nodup_names
  have hlater : ∀ unit ∈ units.drop k, ∀ other ∈ units.take k,
      workspace.disk.goal (unit.path request.directory) ≠
        workspace.disk.goal request.directory ++ [javaFileName other.name] := by
    intro unit hunit other hother
    rw [← hpaths other (List.mem_of_mem_take hother)]
    exact Disk.goal_ne_of_take hapart hunit other hother
  rw [target_directory hprint]
  refine ⟨k, result, _, hcompile, ⟨?_, hreceives, ?_, fun unit hunit bytes =>
    file_iff_of_receives hreceives (hlater unit hunit) bytes⟩, ?_, ?_, ?_⟩
  · rcases hend with ⟨rfl, -⟩ | ⟨unit, -, -, -, hunit, -⟩
    · exact Nat.le_refl _
    · exact Nat.le_of_lt (List.getElem?_eq_some_iff.1 hunit).1
  · intro unit hunit
    rcases hend with ⟨rfl, -⟩ | ⟨next, -, failure, -, hnext, -, hfailed, -⟩
    · simp at hunit
    · obtain rfl : next = unit := Option.some.inj (hnext.symm.trans hunit)
      rw [files_host]
      intro hwritten
      rw [JavaUnit.path] at hfailed
      rw [outputPath, ← Request.directory, hfailed] at hwritten
      cases hwritten
  · rw [hprepared]
    rfl
  · rw [hprepared]
    rfl
  · rcases hend with ⟨rfl, rfl⟩ | ⟨unit, -, -, error, hunit, -, -, rfl, -⟩
    · exact .inl ⟨rfl, rfl⟩
    · exact .inr ⟨(List.getElem?_eq_some_iff.1 hunit).1, error, rfl⟩

/-! ## Outcomes -/

/-- A program that is stopped is stopped by an error of its own: what files and the printer fail
with can be told. -/
theorem exists_refused_of_compile {stop : Stop}
    (hprepare : request.prepare host workspace = (.ok (), prepared))
    (hcompile : (request.program bytes).compile host.files (request.target host) prepared =
      (.error stop, after)) : ∃ error, stop = .refused error := by
  obtain ⟨error, hbytes⟩ | ⟨units, hbytes⟩ := compileBytes_cases request bytes
  · rw [compile_of_refused hbytes] at hcompile
    cases hcompile
    exact ⟨error, rfl⟩
  · cases hprint : request.print with
    | true =>
        rw [target_print hprint, compile_printing hbytes] at hcompile
        cases hcompile
    | false =>
        obtain ⟨k, result, final, hwritten, -, -, -, hend⟩ :=
          compile_wrote hprint hbytes hprepare
        cases hcompile.symm.trans hwritten
        rcases hend with ⟨-, hresult⟩ | ⟨-, error, hresult⟩
        · cases hresult
        · cases hresult
          exact ⟨error, rfl⟩

/-- How a run of the build command ends: its input cannot be read, the output directory cannot be
made, the program is stopped, or it is compiled and delivered. -/
inductive Runs (workspace : Workspace) (request : Request) : Nat → Workspace → Prop where
  | unread {error : CodedError} {message : String}
      (hread : host.files.read request.input workspace = (.error error, workspace))
      (hmessage : readMessage request.input (.failure (.error error)) = .ok message) :
      Runs workspace request 1 (workspace.said [.error message])
  | unprepared {bytes : List UInt8} {error : CodedError} {prepared : Workspace} {message : String}
      (hread : host.files.read request.input workspace = (.ok bytes, workspace))
      (hprepare : request.prepare host workspace = (.error error, prepared))
      (hmessage : writeMessage (.failure (.error error)) = .ok message) :
      Runs workspace request 1 (prepared.said [.error message])
  | stopped {bytes : List UInt8} {error : CompileError} {prepared after : Workspace}
      (hread : host.files.read request.input workspace = (.ok bytes, workspace))
      (hprepare : request.prepare host workspace = (.ok (), prepared))
      (hcompile : (request.program bytes).compile host.files (request.target host) prepared =
        (.error (.refused error), after)) :
      Runs workspace request 1 (after.said [.error error.report])
  | completed {bytes : List UInt8} {units : List JavaUnit} {prepared after : Workspace}
      (hread : host.files.read request.input workspace = (.ok bytes, workspace))
      (hprepare : request.prepare host workspace = (.ok (), prepared))
      (hcompile : (request.program bytes).compile host.files (request.target host) prepared =
        (.ok units, after)) :
      Runs workspace request 0 (after.said (request.announcements units))

/-- Every run ends with an exit code, in one of these ways. -/
theorem build_runs (workspace : Workspace) (request : Request) :
    ∃ code after, workspace.build request = (.ok code, after) ∧
      workspace.Runs request code after := by
  show ∃ code after, request.run host workspace = (.ok code, after) ∧ _
  -- Each step is followed to what it gives; nothing is done after one that fails.
  obtain ⟨outcome, hread⟩ : ∃ outcome, host.files.read request.input workspace =
      (outcome, workspace) := ⟨_, Disk.fileSystem_read diskField request.input workspace⟩
  rcases outcome with error | bytes
  · obtain ⟨message, hmessage⟩ := exists_readMessage request.input error
    simp only [Request.run, bind_apply, hread, hmessage]
    exact ⟨_, _, rfl, .unread hread hmessage⟩
  · rcases hprepare : request.prepare host workspace with ⟨error | ⟨⟩, prepared⟩
    · simp only [Request.run, bind_apply, hread, hprepare]
      exact ⟨_, _, rfl, .unprepared hread hprepare rfl⟩
    · rcases hcompile : (request.program bytes).compile host.files (request.target host) prepared
        with ⟨stop | units, after⟩
      · obtain ⟨error, rfl⟩ := exists_refused_of_compile hprepare hcompile
        have hruns := Runs.stopped hread hprepare hcompile
        rw [Request.program] at hcompile
        simp only [Request.run, bind_apply, hread, hprepare, hcompile]
        exact ⟨_, _, rfl, hruns⟩
      · have hruns := Runs.completed hread hprepare hcompile
        rw [Request.program] at hcompile
        simp only [Request.run, bind_apply, hread, hprepare, hcompile, announce_apply]
        exact ⟨_, _, rfl, hruns⟩

/-- Only the disk is different after the output directory was made. -/
theorem remarks_of_prepare {outcome : Except CodedError Unit}
    (hprepare : request.prepare host workspace = (outcome, prepared)) :
    prepared.remarks = workspace.remarks := by
  cases hprint : request.print with
  | true =>
      rw [prepare_print hprint] at hprepare
      cases hprepare
      rfl
  | false =>
      rw [prepare_directory hprint, Disk.fileSystem_makeDirectories] at hprepare
      split at hprepare
      · cases hprepare
        rfl
      · cases hprepare
        rfl

/-- Nothing is said while a program is compiled and delivered. -/
theorem remarks_of_compile {result : Except Stop (List JavaUnit)}
    (hprepare : request.prepare host workspace = (.ok (), prepared))
    (hcompile : (request.program bytes).compile host.files (request.target host) prepared =
      (result, after)) : after.remarks = workspace.remarks := by
  obtain ⟨error, hbytes⟩ | ⟨units, hbytes⟩ := compileBytes_cases request bytes
  · rw [compile_of_refused hbytes] at hcompile
    cases hcompile
    exact remarks_of_prepare hprepare
  · cases hprint : request.print with
    | true =>
        have hremarks := remarks_of_prepare hprepare
        rw [target_print hprint, compile_printing hbytes] at hcompile
        cases hcompile
        exact hremarks
    | false =>
        obtain ⟨k, result, after, hwritten, -, -, hremarks, -⟩ :=
          compile_wrote hprint hbytes hprepare
        cases hcompile.symm.trans hwritten
        exact hremarks

variable {code : Nat}

/-- A run fails exactly if one error is said in it. -/
theorem exists_said_of_runs (h : workspace.Runs request code after) :
    ∃ said, after.remarks = workspace.remarks ++ said ∧
      (code = 1 ∧ (∃ message, said = [.error message]) ∨
        code = 0 ∧ ∃ units, said = request.announcements units) := by
  cases h with
  | unread hread => exact ⟨_, rfl, .inl ⟨rfl, _, rfl⟩⟩
  | unprepared hread hprepare =>
      exact ⟨_, by rw [said, remarks_of_prepare hprepare], .inl ⟨rfl, _, rfl⟩⟩
  | stopped hread hprepare hcompile =>
      exact ⟨_, by rw [said, remarks_of_compile hprepare hcompile], .inl ⟨rfl, _, rfl⟩⟩
  | completed hread hprepare hcompile =>
      exact ⟨_, by rw [said, remarks_of_compile hprepare hcompile], .inr ⟨rfl, _, rfl⟩⟩

/-- A run that does not fail has compiled its input. It has printed all units and changed no file,
or it has written each to its file. -/
theorem completed_of_runs (h : workspace.Runs request 0 after) :
    ∃ bytes units, host.files.read request.input workspace = (.ok bytes, workspace) ∧
      compileBytes bytes request.input = .ok units ∧
      after.remarks = workspace.remarks ++ request.announcements units ∧
      (request.print = true → after.disk = workspace.disk ∧
        after.printed = workspace.printed ++ String.join (units.map JavaUnit.text)) ∧
      (request.print = false → after.printed = workspace.printed ∧
        workspace.Wrote request units units.length after) := by
  generalize hcode : 0 = code at h
  cases h with
  | unread | unprepared | stopped => cases hcode
  | @completed bytes units prepared found hread hprepare hcompile =>
      have hremarks := remarks_of_compile hprepare hcompile
      obtain ⟨error, hbytes⟩ | ⟨compiled, hbytes⟩ := compileBytes_cases request bytes
      · rw [compile_of_refused hbytes] at hcompile
        cases hcompile
      · cases hprint : request.print with
        | true =>
            rw [prepare_print hprint] at hprepare
            cases hprepare
            rw [target_print hprint, compile_printing hbytes] at hcompile
            cases hcompile
            exact ⟨bytes, units, hread, hbytes, by rw [said, hremarks], fun _ => ⟨rfl, rfl⟩, nofun⟩
        | false =>
            obtain ⟨k, result, final, hwritten, hwrote, hprinted, -, hend⟩ :=
              compile_wrote hprint hbytes hprepare
            cases hcompile.symm.trans hwritten
            rcases hend with ⟨rfl, hresult⟩ | ⟨-, error, hresult⟩
            · cases hresult
              exact ⟨bytes, units, hread, hbytes, by rw [said, hremarks], nofun,
                fun _ => ⟨hprinted, hwrote.said _⟩⟩
            · cases hresult

/-- Once the output directory is made, a run has written the units before the first that cannot be
written, and it fails if there is one. -/
theorem wrote_of_runs (h : workspace.Runs request code after) (hprint : request.print = false)
    (hread : host.files.read request.input workspace = (.ok bytes, workspace))
    (hbytes : compileBytes bytes request.input = .ok units)
    (hprepare : request.prepare host workspace = (.ok (), prepared)) :
    ∃ k, workspace.Wrote request units k after ∧ (code = 1 ↔ k < units.length) := by
  obtain ⟨k, result, final, hwritten, hwrote, -, -, hend⟩ := compile_wrote hprint hbytes hprepare
  cases h with
  | unread hunread => cases hunread.symm.trans hread
  | unprepared _ hunprepared => cases hunprepared.symm.trans hprepare
  | stopped hfound hmade hcompile =>
      cases hfound.symm.trans hread
      cases hmade.symm.trans hprepare
      cases hcompile.symm.trans hwritten
      rcases hend with ⟨-, hresult⟩ | ⟨hlt, -⟩
      · cases hresult
      · exact ⟨k, hwrote.said _, iff_of_true rfl hlt⟩
  | completed hfound hmade hcompile =>
      cases hfound.symm.trans hread
      cases hmade.symm.trans hprepare
      cases hcompile.symm.trans hwritten
      rcases hend with ⟨hall, -⟩ | ⟨-, error, hresult⟩
      · exact ⟨k, hwrote.said _, iff_of_false nofun (Nat.not_lt.2 (Nat.le_of_eq hall.symm))⟩
      · cases hresult

/-- The build command reports truthfully. It ends with an exit code. It fails exactly if it says one
error, and then it says nothing else. Otherwise its input compiles, and it has printed all units and changed no file, or it
has written them and said so, each with the path at which its text is read. When a unit cannot be
written, the units before it are in their files, and the files of later ones are as they were. -/
theorem build_reports (workspace : Workspace) (request : Request) :
    ∃ code after said, workspace.build request = (.ok code, after) ∧
      after.remarks = workspace.remarks ++ said ∧
      (code = 1 ↔ ∃ message, said = [.error message]) ∧
      (code ≠ 1 → code = 0 ∧ ∃ bytes units decls,
        host.files.read request.input workspace = (.ok bytes, workspace) ∧
        compileBytes bytes request.input = .ok units ∧
        (request.program bytes).start.Declares decls ∧
        units.map JavaUnit.name = decls.map Decl.name ∧
        (request.print = true → said = [] ∧ after.disk = workspace.disk ∧
          after.printed = workspace.printed ++ String.join (units.map JavaUnit.text)) ∧
        (request.print = false → after.printed = workspace.printed ∧
          said = (if request.quiet then [] else units.map fun unit =>
            .success ("Wrote " ++ outputPath request.output unit.name)) ∧
          ∀ unit ∈ units, after.disk.read (outputPath request.output unit.name) =
            .ok (Text.Utf8.encode unit.text))) ∧
      ∀ bytes units prepared, request.print = false →
        host.files.read request.input workspace = (.ok bytes, workspace) →
        compileBytes bytes request.input = .ok units →
        request.prepare host workspace = (.ok (), prepared) →
        ∃ k, workspace.Wrote request units k after ∧ (code = 1 ↔ k < units.length) := by
  obtain ⟨code, after, hbuild, hruns⟩ := build_runs workspace request
  obtain ⟨said, hsaid, hcode⟩ := exists_said_of_runs hruns
  refine ⟨code, after, said, hbuild, hsaid, ?_, fun hne => ?_, fun bytes units prepared hprint hread
    hbytes hprepare => wrote_of_runs hruns hprint hread hbytes hprepare⟩
  · rcases hcode with ⟨rfl, hmessage⟩ | ⟨rfl, units, rfl⟩
    · exact iff_of_true rfl hmessage
    · refine iff_of_false nofun ?_
      rintro ⟨message, hmessage⟩
      have hnone := request.error_notMem_announcements units message
      rw [hmessage] at hnone
      exact hnone (List.mem_singleton_self _)
  · obtain rfl : code = 0 := by
      rcases hcode with ⟨hone, -⟩ | ⟨hzero, -⟩
      · exact absurd hone hne
      · exact hzero
    obtain ⟨bytes, units, hread, hbytes, hremarks, hprint, hwrite⟩ := completed_of_runs hruns
    obtain rfl : said = request.announcements units :=
      List.append_cancel_left (hsaid.symm.trans hremarks)
    obtain ⟨found, hcompletes, -⟩ := completes_of_compileBytes hbytes
    obtain ⟨decls, -, hdeclares, hnames, -⟩ :=
      Compilation.declares_of_completes ⟨rfl, rfl⟩ hcompletes
    refine ⟨rfl, bytes, units, decls, hread, hbytes, hdeclares, hnames, fun h => ?_, fun h => ?_⟩
    · obtain ⟨hdisk, hprinted⟩ := hprint h
      exact ⟨by simp [Request.announcements, h], hdisk, hprinted⟩
    · obtain ⟨hprinted, hwrote⟩ := hwrite h
      refine ⟨hprinted, by simp [Request.announcements, h], fun unit hunit => ?_⟩
      exact hwrote.receives.read unit (by rwa [List.take_length])

end Workspace

end EoJava.Build
