import EoJava.Disk.Basic
import EoJava.Text.Excerpt

/-!
# File systems

The file operations that delivery needs, in any monad. `FileSystem.guarded` refuses paths that lead
nowhere, and `Disk.fileSystem` carries the operations out on a disk that is part of a state.
-/

namespace EoJava

/-- Which path a failure to make directories names: the one that was asked for, or the first one
that no directory could be made at. -/
inductive Culprit where
  | asked
  | reached
deriving DecidableEq, Repr

/-- The error of directories of a path that could not be made. -/
def Culprit.error (culprit : Culprit) (asked : String) (obstacle : Disk.Obstacle) : CodedError :=
  fileError obstacle.reason <| .makeDirectory <|
    match culprit with
    | .asked => asked
    | .reached => obstacle.path

/-- The file operations that a program needs. -/
structure FileSystem (m : Type → Type) where
  /-- The bytes of a file. -/
  read : String → m (Except CodedError (List UInt8))
  /-- Makes a directory and those above it. The culprit says which path a failure names. -/
  makeDirectories : Culprit → String → m (Except CodedError Unit)
  /-- Replaces the content of a file. -/
  write : String → String → m (Except CodedError Unit)

/-- The error of an operation on a path that is not proper. -/
def improperPath (path : String) : CodedError where
  name := "TypeError"
  message :=
    "The argument 'path' must be a string, Uint8Array, or URL without null bytes. Received " ++
      String.ofList (Text.Excerpt.display path.toList)
  code := some (.text "ERR_INVALID_ARG_VALUE")

/-- File operations that begin only on proper paths. -/
def FileSystem.guarded {m : Type → Type} [Monad m] (fs : FileSystem m) : FileSystem m where
  read path := if Path.isProper path then fs.read path else pure (.error (improperPath path))
  makeDirectories culprit path :=
    if Path.isProper path then fs.makeDirectories culprit path
    else pure (.error (improperPath path))
  write path text :=
    if Path.isProper path then fs.write path text else pure (.error (improperPath path))

/-- Where a state keeps its disk. -/
structure DiskField (σ : Type) where
  get : σ → Disk
  set : Disk → σ → σ

/-- File operations on the disk of a state. -/
def Disk.fileSystem {σ : Type} (field : DiskField σ) : FileSystem (StateM σ) :=
  .guarded {
    read := fun path state => ((field.get state).read path, state)
    makeDirectories := fun culprit path state =>
      let (made, disk) := (field.get state).makeDirectories path
      (made.mapError (culprit.error path), field.set disk state)
    write := fun path text state =>
      match (field.get state).write path text with
      | .ok disk => (.ok (), field.set disk state)
      | .error error => (.error error, state) }

end EoJava
