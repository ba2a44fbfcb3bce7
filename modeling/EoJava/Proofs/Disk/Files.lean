import EoJava.Disk.FileSystem
import EoJava.Proofs.Disk.Directories

/-!
# Files of a disk

A text that is written to a path is read from it, and nothing else changes (`write_eq_ok_iff`,
`get?_write`, `read_of_writable`). Where a text can be written does not depend on the text, and it
can still be written there when other files were written (`Writable.of_keeps`). On the disk of a
state, an operation that fails changes nothing but the directories that were made.
-/

namespace EoJava

namespace Disk

variable {disk later : Disk} {path text : String}

/-- A path leads to a name in a directory, and no directory has that name. -/
def Writable (disk : Disk) (path : String) : Prop :=
  ∃ directory name, disk.follow path = .ok (.named directory name false) ∧
    name.utf8ByteSize ≤ Path.nameLimit ∧ disk.get? (directory ++ [name]) ≠ some .directory

/-- A path that leads to a name in a directory has its goal there. -/
theorem goal_of_named {directory : Place} {name : String} {slash : Bool}
    (h : disk.follow path = .ok (.named directory name slash)) :
    disk.goal path = directory ++ [name] := by
  obtain ⟨-, hleads⟩ := leads_of_follow h
  cases hleads with
  | named hgoal hrooted => exact hgoal

/-- Where a file can be written, there is no directory. -/
theorem Writable.get? (h : disk.Writable path) : disk.get? (disk.goal path) ≠ some .directory := by
  obtain ⟨directory, name, hfollow, -, hget⟩ := h
  rwa [goal_of_named hfollow]

/-- A text is written exactly where it can be written, at the goal of its path. -/
theorem write_eq_ok_iff : disk.write path text = .ok later ↔
    disk.Writable path ∧ later = disk.put (disk.goal path) (.file (Text.Utf8.encode text)) := by
  rw [write, mapError_eq_ok]
  constructor
  · intro h
    obtain ⟨found, hfollow, h⟩ := exists_of_bind_eq_ok h
    rcases found with place | ⟨directory, name, _ | _⟩
    · cases h
    · obtain ⟨found?, hlook, h⟩ := exists_of_bind_eq_ok h
      obtain ⟨hsize, hget⟩ := look_eq_ok_iff.1 hlook
      rw [goal_of_named hfollow]
      rcases found? with _ | ⟨bytes⟩ | _
      · cases h
        exact ⟨⟨directory, name, hfollow, hsize, by simp [hget]⟩, rfl⟩
      · cases h
        exact ⟨⟨directory, name, hfollow, hsize, by simp [hget]⟩, rfl⟩
      · cases h
    · cases h
  · rintro ⟨⟨directory, name, hfollow, hsize, hget⟩, rfl⟩
    have hlook : disk.look directory name = .ok (disk.get? (directory ++ [name])) :=
      look_eq_ok_iff.2 ⟨hsize, rfl⟩
    rw [goal_of_named hfollow, hfollow, ok_bind]
    simp only
    rw [hlook, ok_bind]
    rcases hentry : disk.get? (directory ++ [name]) with _ | ⟨bytes⟩ | _
    · rfl
    · rfl
    · exact absurd hentry hget

/-- A text that is written is found at the goal of its path, and no other place is different. -/
theorem get?_write (h : disk.write path text = .ok later) (place : Place) :
    later.get? place =
      if place = disk.goal path then some (.file (Text.Utf8.encode text)) else disk.get? place := by
  obtain ⟨hwritable, rfl⟩ := write_eq_ok_iff.1 h
  split
  · next hplace =>
      rw [hplace]
      exact get?_put_self hwritable.get? _
  · next hplace => exact get?_put_of_ne disk hplace _

/-- Writing a file keeps all directories. -/
theorem keeps_write (h : disk.write path text = .ok later) : disk.Keeps later := by
  obtain ⟨hwritable, rfl⟩ := write_eq_ok_iff.1 h
  exact keeps_put hwritable.get? _

/-- As long as directories are kept, a text can be written where it could, unless a directory has
taken the place. -/
theorem Writable.of_keeps (h : disk.Writable path) (hkeeps : disk.Keeps later)
    (hget : later.get? (disk.goal path) ≠ some .directory) : later.Writable path := by
  obtain ⟨directory, name, hfollow, hsize, -⟩ := h
  rw [goal_of_named hfollow] at hget
  exact ⟨directory, name, hkeeps.follow hfollow, hsize, hget⟩

/-- What stands at the goal of a path to which texts can be written is read from it. -/
theorem read_of_writable (h : disk.Writable path) {bytes : List UInt8}
    (hget : disk.get? (disk.goal path) = some (.file bytes)) : disk.read path = .ok bytes := by
  obtain ⟨directory, name, hfollow, hsize, -⟩ := h
  rw [goal_of_named hfollow] at hget
  have hlook := look_eq_ok_iff.2 ⟨hsize, hget⟩
  have hstat : disk.stat path = .ok (.file bytes) := by
    rw [stat, hfollow, ok_bind]
    simp only
    rw [hlook]
    rfl
  rw [read, hstat]

end Disk

/-! ## The disk of a state -/

variable {σ : Type}

/-- A disk that a state is given is the one that it has, and nothing else about the state changes. -/
structure DiskField.Lawful (field : DiskField σ) : Prop where
  get_set : ∀ disk state, field.get (field.set disk state) = disk
  set_get : ∀ state, field.set (field.get state) state = state
  set_set : ∀ disk other state, field.set disk (field.set other state) = field.set disk state

namespace Disk

variable {field : DiskField σ} {state made : σ} {path text : String}

/-- Reading a file reads it from the disk, if its path is proper. -/
theorem fileSystem_read (field : DiskField σ) (path : String) (state : σ) :
    (fileSystem field).read path state =
      (if Path.isProper path then (field.get state).read path else .error (improperPath path),
        state) := by
  unfold fileSystem FileSystem.guarded
  simp only
  split <;> rfl

/-- Making directories changes the disk, if their path is proper. -/
theorem fileSystem_makeDirectories (field : DiskField σ) (culprit : Culprit) (path : String)
    (state : σ) :
    (fileSystem field).makeDirectories culprit path state =
      if Path.isProper path then
        (((field.get state).makeDirectories path).1.mapError (culprit.error path),
          field.set ((field.get state).makeDirectories path).2 state)
      else (.error (improperPath path), state) := by
  unfold fileSystem FileSystem.guarded
  simp only
  split <;> rfl

/-- Writing a file changes the disk if it succeeds, and only if its path is proper. -/
theorem fileSystem_write (field : DiskField σ) (path text : String) (state : σ) :
    (fileSystem field).write path text state =
      if Path.isProper path then
        match (field.get state).write path text with
        | .ok disk => (.ok (), field.set disk state)
        | .error failure => (.error failure, state)
      else (.error (improperPath path), state) := by
  unfold fileSystem FileSystem.guarded
  simp only
  split <;> rfl

/-- The directories of a path are made if the path is proper and they are made on the disk. -/
theorem fileSystem_makeDirectories_eq_ok_iff {culprit : Culprit} :
    (fileSystem field).makeDirectories culprit path state = (.ok (), made) ↔
      Path.isProper path ∧ ∃ disk, (field.get state).makeDirectories path = (.ok (), disk) ∧
        made = field.set disk state := by
  rw [fileSystem_makeDirectories]
  constructor
  · intro h
    split at h
    · next hproper =>
        obtain ⟨hmade, rfl⟩ := Prod.mk.inj h
        exact ⟨hproper, _, Prod.ext (mapError_eq_ok.1 hmade) rfl, rfl⟩
    · cases h
  · rintro ⟨hproper, disk, hmade, rfl⟩
    rw [if_pos hproper, hmade]
    rfl

/-- A text is written if the path is proper and leads to where a text can be written. Otherwise
nothing changes. -/
theorem fileSystem_write_cases (field : DiskField σ) (path text : String) (state : σ) :
    (Path.isProper path ∧ (field.get state).Writable path ∧
      ∃ disk, (field.get state).write path text = .ok disk ∧
        (fileSystem field).write path text state = (.ok (), field.set disk state)) ∨
    ¬(Path.isProper path ∧ (field.get state).Writable path) ∧
      ∃ failure, (fileSystem field).write path text state = (.error failure, state) := by
  rw [fileSystem_write]
  by_cases hproper : Path.isProper path
  · rw [if_pos hproper]
    by_cases hwritable : (field.get state).Writable path
    · have hwrite : (field.get state).write path text = .ok _ :=
        write_eq_ok_iff.2 ⟨hwritable, rfl⟩
      exact .inl ⟨hproper, hwritable, _, hwrite, by rw [hwrite]⟩
    · refine .inr ⟨fun h => hwritable h.2, ?_⟩
      cases hwrite : (field.get state).write path text with
      | ok disk => exact absurd (write_eq_ok_iff.1 hwrite).1 hwritable
      | error failure => exact ⟨failure, rfl⟩
  · rw [if_neg hproper]
    exact .inr ⟨fun h => hproper h.1, _, rfl⟩

/-- Writing succeeds exactly on a proper path where a file can be written. -/
theorem fileSystem_write_eq_ok_iff : ((fileSystem field).write path text state).1 = .ok () ↔
    Path.isProper path ∧ (field.get state).Writable path := by
  obtain ⟨hproper, hwritable, _, -, hwritten⟩ | ⟨hunwritable, failure, hfailed⟩ :=
    fileSystem_write_cases field path text state
  · rw [hwritten]
    exact iff_of_true rfl ⟨hproper, hwritable⟩
  · rw [hfailed]
    exact iff_of_false nofun hunwritable

end Disk

end EoJava
