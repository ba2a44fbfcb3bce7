import EoJava.Compilation.Stages
import EoJava.Diagnostic.Failure
import EoJava.Text.Utf8

/-!
# Compiling a source

All stages in order, on a fresh compilation. The first stage that fails ends it, and the error says
what that stage reported.
-/

namespace EoJava

/-- What a stage fails with: what its diagnostic says, under the name of the errors of the stage,
and the failure behind it, if any. -/
structure StageError where
  name : String
  stage : Stage
  code : Code
  position : Position
  message : String
  cause : Option Failure
deriving DecidableEq, Repr

/-- The error of the stage that a diagnostic belongs to. -/
def StageError.ofDiagnostic (d : Diagnostic) (cause : Option Failure) : StageError where
  name := d.code.stage.errorName
  stage := d.code.stage
  code := d.code
  position := d.position
  message := d.message
  cause := cause

/-- The error of a source that does not compile, or whose units were not delivered: the diagnostic,
its report, and the failure behind it, if any. -/
structure CompileError where
  diagnostic : Diagnostic
  report : String
  cause : Option Failure := none
deriving DecidableEq, Repr

namespace CompileError

/-- The stage that failed. -/
def stage (e : CompileError) : Stage :=
  e.diagnostic.code.stage

/-- The code of the diagnostic. -/
def code (e : CompileError) : Code :=
  e.diagnostic.code

/-- The place of the diagnostic. -/
def position (e : CompileError) : Position :=
  e.diagnostic.position

/-- What the diagnostic says, without its place. -/
def reason (e : CompileError) : String :=
  e.diagnostic.message

/-- The error of the stage that failed. -/
def stageError (e : CompileError) : StageError :=
  .ofDiagnostic e.diagnostic e.cause

end CompileError

/-- Why there are no units: the source was refused, something happened that no source causes, or a
sink threw something that could not be told. -/
inductive Stop where
  | refused (error : CompileError)
  | broken (breakdown : Breakdown)
  | thrown (failure : Failure)
deriving DecidableEq, Repr

namespace Compilation

/-- The error of a compilation that has failed: its first one. -/
def stop (c : Compilation) (cause : Option Failure := none) : Stop :=
  match c.errors with
  | [] => .broken .unreported
  | diagnostic :: _ => .refused { diagnostic, report := c.format diagnostic, cause }

/-- Runs all stages. -/
def run (c : Compilation) : Compilation × Except Stop (List JavaUnit) :=
  match c.tokenize with
  | (false, c) => (c, .error c.stop)
  | (true, c) =>
    match c.parse with
    | .error breakdown => (c, .error (.broken breakdown))
    | .ok (false, c) => (c, .error c.stop)
    | .ok (true, c) =>
      match c.classify with
      | (false, c) => (c, .error c.stop)
      | (true, c) =>
        match c.emit with
        | .error breakdown => (c, .error (.broken breakdown))
        | .ok (none, c) => (c, .error c.stop)
        | .ok (some units, c) => (c, .ok units)

end Compilation

/-- The units of a source. -/
def compile (source : String) (filename : String := "<input>") : Except Stop (List JavaUnit) :=
  ({ source, filename : Compilation }.run).2

/-- The units of a source given as bytes. -/
def compileBytes (bytes : List UInt8) (filename : String := "<input>") :
    Except Stop (List JavaUnit) :=
  compile (Text.Utf8.decodeText bytes) filename

end EoJava
