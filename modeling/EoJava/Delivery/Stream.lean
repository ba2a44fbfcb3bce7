import EoJava.Diagnostic.Failure

/-!
# Streams

A stream takes chunks until it is ended, destroyed or has failed. It keeps the error of the first
destruction, if that carried one. A sink on a stream also keeps the last error that the stream
raised, and that one is told first.
-/

namespace EoJava

/-- A stream with a sink on it. -/
structure Stream where
  chunks : List String := []
  ended : Bool := false
  destroyed : Bool := false
  destroyedWith : Option CodedError := none
  raised : Option CodedError := none
deriving DecidableEq, Repr

namespace Stream

/-- What can happen to a stream besides a write. -/
inductive Event where
  | finish
  | destroy (error : Option CodedError)
  | raise (error : CodedError)
deriving DecidableEq, Repr

/-- A stream after an event. Only the first destruction counts. -/
def happen (stream : Stream) : Event → Stream
  | .finish => { stream with ended := true }
  | .destroy error =>
    if stream.destroyed then stream else { stream with destroyed := true, destroyedWith := error }
  | .raise error => { stream with raised := some error }

/-- Why a stream takes no more chunks, if it does not. -/
def failure? (stream : Stream) : Option CodedError :=
  match stream.raised <|> stream.destroyedWith with
  | some error => some error
  | none =>
    if stream.ended || stream.destroyed then some { message := "stream is no longer writable" }
    else none

/-- Writes a chunk. -/
def write (stream : Stream) (text : String) : Except CodedError Stream :=
  match stream.failure? with
  | some error => .error error
  | none => .ok { stream with chunks := stream.chunks ++ [text] }

end Stream

end EoJava
