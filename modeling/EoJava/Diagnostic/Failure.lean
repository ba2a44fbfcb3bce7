import EoJava.Diagnostic.Scalar

/-!
# Failures

What an output can fail with. The operations of this library fail with errors, which have a message
and may carry a code. A sink that somebody else provides can throw anything: an error, a plain
value, or any other value. Most values have a text that they are shown as, but some have none, and
asking for it throws once more.
-/

namespace EoJava

/-- An error: the name of its kind, its message, and the code that it may carry. The code is any
plain value; the operations of this library give texts. -/
structure CodedError where
  name : String := "Error"
  message : String
  code : Option Scalar := none
deriving DecidableEq, Repr

/-- What an output fails with. -/
inductive Failure where
  | error (error : CodedError)
  | value (value : Scalar)
  /-- Any other value, shown as a text. An error whose message is no text counts as one. -/
  | other (text : String)
  /-- A value that has no text. Whoever asks for one is thrown something else instead. -/
  | mute (instead : Failure)
deriving DecidableEq, Repr

namespace Failure

/-- What is said about a failure, or what asking for that throws. -/
def message : Failure → Except Failure String
  | .error e => .ok e.message
  | .value shown => .ok shown.display
  | .other text => .ok text
  | .mute instead => .error instead

/-- The code of a failure, if it carries one. -/
def code? : Failure → Option Scalar
  | .error e => e.code
  | .value _ | .other _ | .mute _ => none

end Failure

end EoJava
