import EoJava.Build.Command

/-!
# Workspaces

A workspace is all that a build can change: a disk, the text printed so far and the lines said so
far.
-/

namespace EoJava.Build

/-- A disk, what was printed and what was said. -/
structure Workspace where
  disk : Disk := {}
  printed : String := ""
  remarks : List Remark := []
deriving DecidableEq, Repr

namespace Workspace

/-- Where a workspace keeps its disk. -/
def diskField : DiskField Workspace where
  get workspace := workspace.disk
  set disk workspace := { workspace with disk }

/-- The host that works in a workspace. -/
def host : Host (StateM Workspace) where
  files := Disk.fileSystem diskField
  printer := fun text workspace =>
    (.ok (), { workspace with printed := workspace.printed ++ text })
  say remark workspace := ((), { workspace with remarks := workspace.remarks ++ [remark] })

/-- Carries out a request in a workspace. -/
def build (workspace : Workspace) (request : Request) : Except Failure Nat × Workspace :=
  (request.run host).run workspace

end Workspace

end EoJava.Build
