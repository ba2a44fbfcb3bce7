import EoJava.Delivery.Stream
import EoJava.Disk.FileSystem

/-!
# Sinks

A sink takes the complete text of a unit or fails. A resolver finds the sink of a unit by the
unit's name, or fails. An outlet is a sink that keeps what it was given.
-/

namespace EoJava

/-- Takes the text of a unit. -/
def Sink (m : Type → Type) : Type := String → m (Except Failure Unit)

/-- Finds the sink of a unit by its name. -/
def Resolver (m : Type → Type) : Type := String → m (Except Failure (Sink m))

/-- The name of the file that holds a unit. -/
def javaFileName (name : String) : String :=
  name ++ ".java"

/-- The sink that replaces the content of a file. -/
def fileSink {m : Type → Type} [Monad m] (fs : FileSystem m) (path : String) : Sink m :=
  fun text => do
    let written ← fs.write path text
    pure (written.mapError .error)

/-- The resolver that writes each unit to its own file in a directory, which is made first. -/
def directoryResolver {m : Type → Type} [Monad m] (fs : FileSystem m) (directory : String) :
    Resolver m := fun name => do
  match ← fs.makeDirectories .asked directory with
  | .error error => pure (.error (.error error))
  | .ok () => pure (.ok (fileSink fs (Path.join directory (javaFileName name))))

/-- A sink with what it was given so far. -/
inductive Outlet where
  /-- Keeps every text. -/
  | memory (writes : List String)
  /-- Keeps nothing. -/
  | discard
  /-- Passes texts on to a stream. -/
  | stream (stream : Stream)
  /-- Fails at every text. -/
  | failing (failure : Failure)
deriving DecidableEq, Repr

namespace Outlet

/-- Writes a text. -/
def write : Outlet → String → Except Failure Outlet
  | .memory writes, text => .ok (.memory (writes ++ [text]))
  | .discard, _ => .ok .discard
  | .stream s, text => ((s.write text).map .stream).mapError .error
  | .failing failure, _ => .error failure

/-- An outlet as a sink. A text that it refuses does not change it. -/
def sink : Sink (StateM Outlet) := fun text outlet =>
  match outlet.write text with
  | .error failure => (.error failure, outlet)
  | .ok later => (.ok (), later)

/-- All that an outlet holds, if it keeps what it is given. -/
def contents? : Outlet → Option String
  | .memory writes => some (String.join writes)
  | .stream s => some (String.join s.chunks)
  | .discard | .failing _ => none

end Outlet

end EoJava
