import EoJava.Compilation.Run
import EoJava.Proofs.Compilation.Parse
import EoJava.Proofs.Java.Emission
import EoJava.Proofs.Shape.Faults

/-!
# Runs

A run gives units and reports nothing, or it ends at the first stage that fails, which has reported
one diagnostic. It never breaks down (`compile_settles`).
-/

namespace EoJava

/-- An error says what a diagnostic says. -/
structure CompileError.Tells (error : CompileError) (d : Diagnostic) : Prop where
  stage : error.stage = d.code.stage
  code : error.code = d.code
  position : error.position = d.position
  reason : error.reason = d.message
  stageError : error.stageError =
    { name := d.code.stage.errorName, stage := d.code.stage, code := d.code,
      position := d.position, message := d.message, cause := none }

namespace Compilation

variable {c : Compilation}

/-- A classification reports nothing, or one diagnostic of its own. -/
theorem classify_cases (c : Compilation) :
    (∃ declarations, c.classify = (true, { c with declarations })) ∨
      ∃ declarations diagnostic,
        c.classify = (false, { c with declarations }.add diagnostic) ∧
          diagnostic.code.stage = .classify := by
  rcases hshaped : Shape.classify (c.declarations.getD []) with ⟨shaped, fault?⟩
  cases fault? with
  | none =>
      refine .inl ⟨c.declarations.map fun _ => shaped, ?_⟩
      simp only [classify, hshaped]
  | some fault =>
      have hstage := Shape.stage_of_classify (congrArg Prod.snd hshaped)
      refine .inr ⟨c.declarations.map fun _ => shaped, .ofProblem fault, ?_, hstage⟩
      simp only [classify, hshaped]
      rfl

theorem emit_of_units {bound : List Decl} {units : List JavaUnit}
    (h : Java.emit (c.declarations.getD []) = .ok ⟨bound, .ok units⟩) :
    c.emit = .ok (some units, { c with declarations := c.declarations.map fun _ => bound }) := by
  simp only [emit, h, ok_bind]
  rfl

theorem emit_of_problem {bound : List Decl} {problem : Located Problem}
    (h : Java.emit (c.declarations.getD []) = .ok ⟨bound, .error problem⟩) :
    c.emit = .ok (none,
      { c with declarations := c.declarations.map fun _ => bound }.report problem) := by
  simp only [emit, h, ok_bind]
  rfl

/-- An emission gives units, or it reports one problem with an expression. -/
theorem emit_cases (c : Compilation) :
    (∃ declarations units, c.emit = .ok (some units, { c with declarations })) ∨
      ∃ declarations diagnostic,
        c.emit = .ok (none, { c with declarations }.add diagnostic) ∧
          diagnostic.code.stage = .expression := by
  obtain ⟨node, units, hemit⟩ | ⟨node, problem, hemit, _, _, _, _, hfails⟩ :=
    Java.emit_cases (c.declarations.getD [])
  · exact .inl ⟨_, units, emit_of_units hemit⟩
  · exact .inr ⟨_, .ofProblem problem, emit_of_problem hemit, hfails.stage⟩

/-- All stages of a compilation succeed. What is left at the end, and the units. -/
inductive Completes (c : Compilation) : Compilation → List JavaUnit → Prop where
  | intro {read parsed shaped after : Compilation} {units : List JavaUnit}
      (hread : c.tokenize = (true, read)) (hparsed : read.parse = .ok (true, parsed))
      (hshaped : parsed.classify = (true, shaped))
      (hafter : shaped.emit = .ok (some units, after)) : Completes c after units

/-- The first stage of a compilation that fails, and what is left then. -/
inductive FailsAt (c : Compilation) : Stage → Compilation → Prop where
  | lex {after : Compilation} (hafter : c.tokenize = (false, after)) : FailsAt c .lex after
  | parse {read after : Compilation} (hread : c.tokenize = (true, read))
      (hafter : read.parse = .ok (false, after)) : FailsAt c .parse after
  | classify {read parsed after : Compilation} (hread : c.tokenize = (true, read))
      (hparsed : read.parse = .ok (true, parsed)) (hafter : parsed.classify = (false, after)) :
      FailsAt c .classify after
  | expression {read parsed shaped after : Compilation} (hread : c.tokenize = (true, read))
      (hparsed : read.parse = .ok (true, parsed)) (hshaped : parsed.classify = (true, shaped))
      (hafter : shaped.emit = .ok (none, after)) : FailsAt c .expression after

/-- If all stages succeed, a run gives the units. -/
theorem run_of_completes {after : Compilation} {units : List JavaUnit}
    (h : c.Completes after units) : c.run = (after, .ok units) := by
  obtain ⟨hread, hparsed, hshaped, hafter⟩ := h
  simp only [run, hread, hparsed, hshaped, hafter]

/-- At the first stage that fails, a run ends with the error of what is left. -/
theorem run_of_failsAt {stage : Stage} {after : Compilation} (h : c.FailsAt stage after) :
    c.run = (after, .error after.stop) := by
  cases h with
  | lex hafter => simp only [run, hafter]
  | parse hread hafter => simp only [run, hread, hafter]
  | classify hread hparsed hafter => simp only [run, hread, hparsed, hafter]
  | expression hread hparsed hshaped hafter => simp only [run, hread, hparsed, hshaped, hafter]

/-- The error of a compilation with one diagnostic tells it. -/
theorem stop_of_diagnostics {d : Diagnostic} (h : c.diagnostics = [d]) :
    c.stop = .refused { diagnostic := d, report := c.format d } := by
  rw [stop, errors_eq, h]

/-- A fresh compilation completes without a diagnostic, or it fails with one diagnostic, of the
stage at which it fails. -/
theorem completes_or_fails (hfresh : c.Fresh) :
    (∃ after units, c.Completes after units ∧ after.diagnostics = []) ∨
      ∃ stage after diagnostic, c.FailsAt stage after ∧ after.diagnostics = [diagnostic] ∧
        diagnostic.code.stage = stage := by
  -- Each stage is looked at where all before it have succeeded, so nothing was reported yet.
  obtain ⟨read, us, hread, hnone, hcarried, -⟩ | ⟨after, problem, hafter, hone, hstage⟩ :=
    tokenize_cases hfresh
  swap
  · exact .inr ⟨.lex, after, _, .lex hafter, hone, hstage⟩
  obtain ⟨decls, hparsed⟩ | ⟨diagnostic, hafter, hstage⟩ := parse_cases hcarried
  swap
  · exact .inr ⟨.parse, _, diagnostic, .parse hread hafter, by simp [add, hnone], hstage⟩
  obtain ⟨shapes, hshaped⟩ | ⟨shapes, diagnostic, hafter, hstage⟩ :=
    classify_cases { read with declarations := some decls }
  swap
  · exact .inr ⟨.classify, _, diagnostic, .classify hread hparsed hafter, by simp [add, hnone],
      hstage⟩
  obtain ⟨bound, units, hafter⟩ | ⟨bound, diagnostic, hafter, hstage⟩ :=
    emit_cases { read with declarations := shapes }
  · exact .inl ⟨_, units, .intro hread hparsed hshaped hafter, hnone⟩
  · exact .inr ⟨.expression, _, diagnostic, .expression hread hparsed hshaped hafter,
      by simp [add, hnone], hstage⟩

/-- An outcome settles a compilation. Either it is the units that the last stage gives, and nothing
was reported; or there is one diagnostic, of the first stage that failed, and the outcome is the
error that tells it. -/
inductive Settles (c : Compilation) : Except Stop (List JavaUnit) → Prop where
  | units {after : Compilation} {units : List JavaUnit} (hrun : c.run = (after, .ok units))
      (hcompletes : c.Completes after units) (hnone : after.diagnostics = []) :
      Settles c (.ok units)
  | refused {stage : Stage} {after : Compilation} {d : Diagnostic} {error : CompileError}
      (hrun : c.run = (after, .error (.refused error))) (hfails : c.FailsAt stage after)
      (hone : after.diagnostics = [d]) (hstage : d.code.stage = stage) (htells : error.Tells d)
      (hreport : error.report = after.format d) : Settles c (.error (.refused error))

theorem run_settles (hfresh : c.Fresh) : c.Settles c.run.2 := by
  obtain ⟨after, units, hcompletes, hnone⟩ | ⟨stage, after, d, hfails, hone, hstage⟩ :=
    completes_or_fails hfresh
  · have hrun := run_of_completes hcompletes
    rw [hrun]
    exact .units hrun hcompletes hnone
  · have hrun := run_of_failsAt hfails
    rw [stop_of_diagnostics hone] at hrun
    rw [hrun]
    exact .refused hrun hfails hone hstage ⟨rfl, rfl, rfl, rfl, rfl⟩ rfl

end Compilation

theorem exists_units {result : Except Stop (List JavaUnit)} (h : result.isOk = true) :
    ∃ units, result = .ok units := by
  cases result with
  | error stop => cases h
  | ok units => exact ⟨units, rfl⟩

/-- Every source compiles, or it is refused with the one diagnostic that was reported, by the first
stage that failed. The same holds for sources given as bytes. -/
theorem compile_settles (filename : String) :
    (∀ source, Compilation.Settles { source, filename } (compile source filename)) ∧
      ∀ bytes, Compilation.Settles { source := Text.Utf8.decodeText bytes, filename }
        (compileBytes bytes filename) := by
  have hsource : ∀ source, Compilation.Settles { source, filename } (compile source filename) :=
    fun source => Compilation.run_settles ⟨rfl, rfl⟩
  exact ⟨hsource, fun bytes => hsource (Text.Utf8.decodeText bytes)⟩

end EoJava
