import EoJava.Compilation.Run
import EoJava.Delivery.Sink
import EoJava.Diagnostic.Catalog

/-!
# Messages of the build command

What the build command says when it cannot read its input, cannot write its output, or cannot
compile. A source that was refused is told by its report; any other failure gets a message of the
build command's own catalog, unless it has no text that could be told.
-/

namespace EoJava.Build

/-- What the build command can fail with: a source that was refused, or any other failure. -/
inductive Trouble where
  | refused (error : CompileError)
  | failure (failure : Failure)
deriving DecidableEq, Repr

namespace Trouble

/-- What is said about trouble, or what asking for that throws. -/
def message : Trouble → Except Failure String
  | .refused error => .ok error.report
  | .failure f => f.message

/-- The code that trouble carries. -/
def code? : Trouble → Option Scalar
  | .refused error => some (.text error.diagnostic.code.text)
  | .failure f => f.code?

end Trouble

/-- A message of the build command's catalog, under its code. -/
def commandMessage (code : CommandCode) (arguments : Arguments) : String :=
  "[" ++ code.text ++ "] " ++ code.entry.message.fill arguments

/-- The message for an input that cannot be read. -/
def readMessage (path : String) (trouble : Trouble) : Except Failure String :=
  if trouble.code? = some (.text FileReason.notFound.code) then
    .ok (commandMessage .fileNotFound [("path", .text path)])
  else do
    let reason ← trouble.message
    pure (commandMessage .unreadableFile [("reason", .text reason)])

/-- The message for an output that cannot be written. -/
def writeMessage (trouble : Trouble) : Except Failure String := do
  let reason ← trouble.message
  pure (commandMessage .unwritableOutput [("reason", .text reason)])

/-- The message for a source that does not compile. -/
def compileMessage : Trouble → Except Failure String
  | .refused error => .ok error.report
  | .failure f => do
    let reason ← f.message
    pure (commandMessage .failedCompilation [("reason", .text reason)])

/-- An error can always be told. -/
theorem exists_readMessage (path : String) (error : CodedError) :
    ∃ message, readMessage path (.failure (.error error)) = .ok message := by
  unfold readMessage
  split
  · exact ⟨_, rfl⟩
  · exact ⟨_, rfl⟩

theorem writeMessage_error (error : CodedError) : writeMessage (.failure (.error error)) =
    .ok (commandMessage .unwritableOutput [("reason", .text error.message)]) :=
  rfl

/-- The path of the file of a unit, given the output directory, if one was named. -/
def outputPath (output : Option String) (name : String) : String :=
  Path.join (output.getD ".") (javaFileName name)

end EoJava.Build
