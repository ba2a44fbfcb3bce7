import EoJava.Build.Messages
import EoJava.Delivery.Program

/-!
# The build command

The command reads a file, makes the output directory, compiles the file and writes its units there,
or prints them all if it was asked to. It says which files it wrote unless it is quiet, and it says
one error and gives up at the first thing that fails.
-/

namespace EoJava.Build

/-- What the command was asked to do. -/
structure Request where
  input : String
  output : Option String := none
  print : Bool := false
  quiet : Bool := false
deriving DecidableEq, Repr

/-- A line that the command says. -/
inductive Remark where
  | error (message : String)
  | success (message : String)
deriving DecidableEq, Repr

/-- What the command works with. -/
structure Host (m : Type → Type) where
  files : FileSystem m
  /-- Takes printed units. -/
  printer : Sink m
  /-- Takes the lines that the command says. -/
  say : Remark → m Unit

variable {m : Type → Type} [Monad m]

/-- Says an error, if there is a message for it. The command then fails. -/
def Host.fail (host : Host m) : Except Failure String → m (Except Failure Nat)
  | .error thrown => pure (.error thrown)
  | .ok message => do
    host.say (.error message)
    pure (.ok 1)

/-- Where the units of a request go. -/
def Request.target (request : Request) (host : Host m) : Target m :=
  if request.print then .resolver fun _ => pure (.ok host.printer)
  else .directory (request.output.getD ".")

/-- Makes the output directory, unless units are to be printed. -/
def Request.prepare (request : Request) (host : Host m) : m (Except CodedError Unit) :=
  if request.print then pure (.ok ())
  else host.files.makeDirectories .reached (request.output.getD ".")

/-- Says which files were written, unless there are none or the command is to be quiet. -/
def Request.announce (request : Request) (host : Host m) : List JavaUnit → m Unit
  | [] => pure ()
  | unit :: units => do
    if request.quiet || request.print then pure ()
    else host.say (.success ("Wrote " ++ outputPath request.output unit.name))
    request.announce host units

/-- The trouble of a program that was stopped. -/
def Trouble.ofStop : Stop → Trouble
  | .refused error => .refused error
  | .broken breakdown => .failure (.error { message := breakdown.message })
  | .thrown found => .failure found

/-- Carries out a request. The result is the exit code, or what was thrown when a message was to be
made of a failure that has no text. -/
def Request.run (request : Request) (host : Host m) : m (Except Failure Nat) := do
  match ← host.files.read request.input with
  | .error error => host.fail (readMessage request.input (.failure (.error error)))
  | .ok bytes =>
    match ← request.prepare host with
    | .error error => host.fail (writeMessage (.failure (.error error)))
    | .ok () =>
      let program : Program :=
        { source := Text.Utf8.decodeText bytes, filename := request.input }
      match ← program.compile host.files (request.target host) with
      | .error stop => host.fail (compileMessage (.ofStop stop))
      | .ok units => do
        request.announce host units
        pure (.ok 0)

end EoJava.Build
