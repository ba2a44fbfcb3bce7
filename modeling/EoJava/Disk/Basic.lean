import EoJava.Diagnostic.Failure
import EoJava.Disk.Path
import EoJava.Text.Utf8

/-!
# Disks

A disk is a tree of directories and files, held as its entries by path. One directory is home: paths
that do not start at the root start there, and it is always there, as are the directories above it.
Each operation either does what it says or fails for one reason and leaves the disk as it was; only
making a directory together with its parents can fail after some of them were made.
-/

namespace EoJava

/-- Why a file operation fails. -/
inductive FileReason where
  | notFound
  | notDirectory
  | isDirectory
  | alreadyExists
  | nameTooLong
deriving DecidableEq, Repr

namespace FileReason

/-- The system code of a reason. -/
def code : FileReason → String
  | .notFound => "ENOENT"
  | .notDirectory => "ENOTDIR"
  | .isDirectory => "EISDIR"
  | .alreadyExists => "EEXIST"
  | .nameTooLong => "ENAMETOOLONG"

/-- What is said about a reason. -/
def describe : FileReason → String
  | .notFound => "no such file or directory"
  | .notDirectory => "not a directory"
  | .isDirectory => "illegal operation on a directory"
  | .alreadyExists => "file already exists"
  | .nameTooLong => "name too long"

end FileReason

/-- What a file operation was about to do. -/
inductive FileAction where
  | openFile (path : String)
  | readFile
  | makeDirectory (path : String)
deriving DecidableEq, Repr

namespace FileAction

/-- An action as messages name it. -/
def describe : FileAction → String
  | .openFile path => "open '" ++ path ++ "'"
  | .readFile => "read"
  | .makeDirectory path => "mkdir '" ++ path ++ "'"

end FileAction

/-- The error of a file operation. -/
def fileError (reason : FileReason) (action : FileAction) : CodedError where
  message := reason.code ++ ": " ++ reason.describe ++ ", " ++ action.describe
  code := some (.text reason.code)

/-- What stands at a path: a file with its bytes, or a directory. -/
inductive Entry where
  | file (bytes : List UInt8)
  | directory
deriving DecidableEq, Repr

/-- The names that lead from the root to an entry. -/
abbrev Place := List String

/-- A tree of directories and files. -/
structure Disk where
  home : Place := []
  entries : List (Place × Entry) := []
deriving DecidableEq, Repr

namespace Disk

/-- What stands at a place. -/
def get? (disk : Disk) (place : Place) : Option Entry :=
  if place.isPrefixOf disk.home then some .directory else disk.entries.lookup place

/-- Puts an entry at a place, in the stead of one that is there. -/
def put (disk : Disk) (place : Place) (entry : Entry) : Disk :=
  if (disk.entries.lookup place).isSome then
    { disk with
      entries := disk.entries.map fun (at?, old) => (at?, if at? = place then entry else old) }
  else { disk with entries := disk.entries ++ [(place, entry)] }

/-- The entries below home, each with the path to it from there. -/
def listing (disk : Disk) : List (String × Entry) :=
  disk.entries.filterMap fun (place, entry) =>
    if disk.home.isPrefixOf place then
      some ("/".intercalate (place.drop disk.home.length), entry)
    else none

/-- Puts an entry where a path from home leads, with a directory at every place above it. -/
def plant (disk : Disk) (path : String) (entry : Entry) : Disk :=
  let place := disk.home ++ Path.resolved path
  let above := (List.range place.length).map place.take
  let grown := above.foldl
    (fun disk place => if (disk.get? place).isSome then disk else disk.put place .directory) disk
  grown.put place entry

/-- What stands under a name in a directory, if anything does. -/
def look (disk : Disk) (directory : Place) (name : String) : Except FileReason (Option Entry) :=
  if Path.nameLimit < name.utf8ByteSize then .error .nameTooLong
  else .ok (disk.get? (directory ++ [name]))

/-- The directory that names lead to from another one. -/
def descend (disk : Disk) (directory : Place) : List String → Except FileReason Place
  | [] => .ok directory
  | name :: names =>
    if name = "." then disk.descend directory names
    else if name = ".." then disk.descend directory.dropLast names
    else
      match disk.look directory name with
      | .error reason => .error reason
      | .ok none => .error .notFound
      | .ok (some (.file _)) => .error .notDirectory
      | .ok (some .directory) => disk.descend (directory ++ [name]) names

/-- Where a path leads: to a directory that is there, or to a name in one, which may have nothing at
it. A slash after the name asks for a directory. -/
inductive Destination where
  | directory (place : Place)
  | named (directory : Place) (name : String) (slash : Bool)
deriving DecidableEq, Repr

/-- Where a path leads. -/
def follow (disk : Disk) (path : String) : Except FileReason Destination :=
  if path.isEmpty then .error .notFound
  else if Path.limit < path.utf8ByteSize then .error .nameTooLong
  else
    match (Path.names path).getLast? with
    | none => .ok (.directory [])
    | some last => do
      let start := if Path.isAbsolute path then [] else disk.home
      let directory ← disk.descend start (Path.names path).dropLast
      if last = "." then pure (.directory directory)
      else if last = ".." then pure (.directory directory.dropLast)
      else pure (.named directory last (Path.endsWithSlash path))

/-- What a path leads to. -/
def stat (disk : Disk) (path : String) : Except FileReason Entry := do
  match ← disk.follow path with
  | .directory _ => pure .directory
  | .named directory name slash =>
    match ← disk.look directory name with
    | none => .error .notFound
    | some (.file bytes) => if slash then .error .notDirectory else pure (.file bytes)
    | some .directory => pure .directory

/-- The bytes of the file that a path leads to. -/
def read (disk : Disk) (path : String) : Except CodedError (List UInt8) :=
  match disk.stat path with
  | .error reason => .error (fileError reason (.openFile path))
  | .ok .directory => .error (fileError .isDirectory .readFile)
  | .ok (.file bytes) => .ok bytes

/-- The disk with a text in the file that a path leads to. The file is made if it is not there. -/
def write (disk : Disk) (path text : String) : Except CodedError Disk :=
  let written : Except FileReason Disk := do
    match ← disk.follow path with
    | .directory _ | .named _ _ true => .error .isDirectory
    | .named directory name false =>
      match ← disk.look directory name with
      | some .directory => .error .isDirectory
      | _ => pure (disk.put (directory ++ [name]) (.file (Text.Utf8.encode text)))
  written.mapError fun reason => fileError reason (.openFile path)

/-- The disk with a new directory where a path leads. -/
def makeDirectory (disk : Disk) (path : String) : Except FileReason Disk := do
  match ← disk.follow path with
  | .directory _ => .error .alreadyExists
  | .named directory name _ =>
    match ← disk.look directory name with
    | some _ => .error .alreadyExists
    | none => pure (disk.put (directory ++ [name]) .directory)

/-- The disk with a directory where a path leads, new or not, or `none` if a directory on the way is
missing. A file that is in the way is told apart by whether more directories were to be made below
it. -/
def ensureDirectory (disk : Disk) (below : Bool) (path : String) :
    Except FileReason (Option Disk) :=
  match disk.makeDirectory path with
  | .ok disk => .ok (some disk)
  | .error .notFound => .ok none
  | .error .notDirectory => .error .notDirectory
  | .error _ => do
    match ← disk.stat path with
    | .directory => pure (some disk)
    | .file _ => .error (if below then .notDirectory else .alreadyExists)

/-- Why directories could not all be made, and the first path that none could be made at. -/
structure Obstacle where
  reason : FileReason
  path : String
deriving DecidableEq, Repr

/-- Makes the directory that a path leads to, after the directories above it if they are missing.
Directories made before a failure stay. -/
def ensureAll (disk : Disk) (below : Bool) (path : List Char) : Except Obstacle Unit × Disk :=
  let blocked (reason : FileReason) : Except Obstacle Unit :=
    .error ⟨reason, String.ofList path⟩
  match disk.ensureDirectory below (String.ofList path) with
  | .error reason => (blocked reason, disk)
  | .ok (some disk) => (.ok (), disk)
  | .ok none =>
    match _above : Path.parent? path with
    | none => (if below then .ok () else blocked .notFound, disk)
    | some parent =>
      match disk.ensureAll true parent with
      | (.error obstacle, disk) => (.error obstacle, disk)
      | (.ok (), disk) =>
        match disk.ensureDirectory below (String.ofList path) with
        | .error reason => (blocked reason, disk)
        | .ok (some disk) => (.ok (), disk)
        | .ok none => (blocked .notFound, disk)
termination_by path.length
decreasing_by exact Path.length_of_parent? _above

/-- Makes the directory that a path leads to and those above it. -/
def makeDirectories (disk : Disk) (path : String) : Except Obstacle Unit × Disk :=
  disk.ensureAll false path.toList

end Disk

end EoJava
