import EoJava.Proofs.Delivery.Program
import EoJava.Proofs.Disk.Files

/-!
# Deliveries to a directory

The units of a program that are delivered to a directory are written there one after the other, each
to a file of its own, up to the first that cannot be written. All that changes besides is that the
directory is made before the first one (`Program.compile_stores`).
-/

namespace EoJava

/-- The path of the file of a unit in a directory. -/
def JavaUnit.path (directory : String) (unit : JavaUnit) : String :=
  Path.join directory (javaFileName unit.name)

/-- A unit that has the name of something declared is in a file right in its directory. -/
theorem Disk.goal_path (disk : Disk) (directory : String) {unit : JavaUnit}
    (h : isIdentifier unit.name) :
    disk.goal (unit.path directory) = disk.goal directory ++ [javaFileName unit.name] := by
  have hne : ∀ short : String, short.length < 5 → javaFileName unit.name ≠ short := by
    rintro short hshort rfl
    rw [javaFileName, String.length_append] at hshort
    exact absurd (Nat.le_add_left 5 _) (Nat.not_le.2 hshort)
  have hslash : '/' ∉ unit.name.toList := fun hmem =>
    absurd (Grammar.isWordPart_of_mem_identifier h '/' hmem) (by decide)
  exact disk.goal_join directory ⟨hne "" (by decide), by simpa [javaFileName] using hslash⟩
    (hne "." (by decide)) (hne ".." (by decide))

/-- Units of different names are in different files. -/
theorem Disk.nodup_goals (disk : Disk) (directory : String) {units : List JavaUnit}
    (hnames : ∀ unit ∈ units, isIdentifier unit.name)
    (hnodup : (units.map JavaUnit.name).Nodup) :
    (units.map fun unit => disk.goal (unit.path directory)).Nodup := by
  have hgoals : (units.map fun unit => disk.goal (unit.path directory)) =
      (units.map JavaUnit.name).map fun name => disk.goal directory ++ [javaFileName name] := by
    rw [List.map_map]
    exact List.map_congr_left fun unit hunit => disk.goal_path directory (hnames unit hunit)
  rw [hgoals]
  refine hnodup.map fun name other hsame => ?_
  simpa [javaFileName] using hsame

namespace Disk

variable {disk mid later : Disk} {directory : String} {unit : JavaUnit} {units : List JavaUnit}

/-- Units were written to their files in a directory, and nothing else has changed. -/
structure Stores (disk : Disk) (directory : String) (units : List JavaUnit) (later : Disk) : Prop
    where
  keeps : disk.Keeps later
  file : ∀ unit ∈ units,
    later.get? (disk.goal (unit.path directory)) = some (.file (Text.Utf8.encode unit.text))
  read : ∀ unit ∈ units, later.read (unit.path directory) = .ok (Text.Utf8.encode unit.text)
  other : ∀ place, (∀ unit ∈ units, place ≠ disk.goal (unit.path directory)) →
    later.get? place = disk.get? place

theorem stores_nil (disk : Disk) (directory : String) : disk.Stores directory [] disk :=
  ⟨.refl disk, List.forall_mem_nil _, List.forall_mem_nil _, fun _ _ => rfl⟩

/-- A unit that is written before others that are stored elsewhere is stored with them. -/
theorem Stores.cons (h : mid.Stores directory units later)
    (hwrite : disk.write (unit.path directory) unit.text = .ok mid)
    (hapart : ∀ other ∈ units,
      disk.goal (unit.path directory) ≠ disk.goal (other.path directory)) :
    disk.Stores directory (unit :: units) later := by
  have hkeeps := (keeps_write hwrite).trans h.keeps
  have hgoal := (keeps_write hwrite).goal
  have hfile : later.get? (disk.goal (unit.path directory)) =
      some (.file (Text.Utf8.encode unit.text)) := by
    rw [h.other _ fun other hother => ?_, get?_write hwrite, if_pos rfl]
    rw [hgoal]
    exact hapart other hother
  refine ⟨hkeeps, List.forall_mem_cons.2 ⟨hfile, fun other hother => ?_⟩,
    List.forall_mem_cons.2 ⟨?_, h.read⟩, fun place hplace => ?_⟩
  · rw [← hgoal]
    exact h.file other hother
  · have hwritable := (write_eq_ok_iff.1 hwrite).1.of_keeps hkeeps (by simp [hfile])
    refine read_of_writable hwritable ?_
    rw [hkeeps.goal]
    exact hfile
  · obtain ⟨hfirst, hothers⟩ := List.forall_mem_cons.1 hplace
    rw [h.other place fun other hother => ?_, get?_write hwrite, if_neg hfirst]
    rw [hgoal]
    exact hothers other hother

/-- The units after those that are stored are stored elsewhere. -/
theorem goal_ne_of_take {units : List JavaUnit} {k : Nat}
    (hapart : (units.map fun unit => disk.goal (unit.path directory)).Nodup)
    (hunit : unit ∈ units.drop k) :
    ∀ other ∈ units.take k, disk.goal (unit.path directory) ≠ disk.goal (other.path directory) := by
  intro other hother hsame
  rw [← List.take_append_drop k units, List.map_append] at hapart
  refine List.disjoint_of_nodup_append hapart (List.mem_map_of_mem hother) ?_
  exact List.mem_map.2 ⟨unit, hunit, hsame⟩

/-- A unit that could be written before others were stored can still be written. -/
theorem Stores.writable {k : Nat} (h : disk.Stores directory (units.take k) later)
    (hapart : (units.map fun unit => disk.goal (unit.path directory)).Nodup)
    (hunit : unit ∈ units.drop k) (hwritable : disk.Writable (unit.path directory)) :
    later.Writable (unit.path directory) := by
  refine hwritable.of_keeps h.keeps ?_
  rw [h.other _ (goal_ne_of_take hapart hunit)]
  exact hwritable.get?

end Disk

/-! ## Deliveries -/

section

variable {σ : Type} {field : DiskField σ} {directory : String} {state : σ}

/-- The sink of a file writes the file, and what it fails with is the error of that. -/
theorem fileSink_apply (fs : FileSystem (StateM σ)) (path text : String) (state : σ) :
    fileSink fs path text state =
      ((fs.write path text state).1.mapError .error, (fs.write path text state).2) :=
  rfl

/-- A unit is delivered to a directory that is there by writing its file. -/
theorem deliverUnit_directory (hfield : field.Lawful) (hproper : Path.isProper directory)
    (hstat : (field.get state).stat directory = .ok .directory) (unit : JavaUnit) :
    deliverUnit (directoryResolver (Disk.fileSystem field) directory) unit state =
      fileSink (Disk.fileSystem field) (unit.path directory) unit.text state := by
  have hmade : (Disk.fileSystem field).makeDirectories .asked directory state = (.ok (), state) :=
    Disk.fileSystem_makeDirectories_eq_ok_iff.2
      ⟨hproper, _, Disk.makeDirectories_of_stat hstat, (hfield.set_get state).symm⟩
  rw [deliverUnit_apply, directoryResolver, bind_apply, hmade]
  rfl

/-- The first `k` units were stored in a directory. They are all, or the next one cannot be
written. -/
def DiskField.Delivered (field : DiskField σ) (directory : String) (c : Compilation)
    (units : List (Located JavaUnit)) (k : Nat) (state : σ) (result : Except Stop Unit)
    (final : σ) : Prop :=
  ∃ later, final = field.set later state ∧
    (field.get state).Stores directory ((units.map (·.value)).take k) later ∧
    (k = units.length ∧ result = .ok () ∨
      ∃ unit error, units[k]? = some unit ∧ (Disk.fileSystem field).write
        (unit.value.path directory) unit.value.text final = (.error error, final) ∧
        result = .error (undelivered c unit (.error error)))

/-- Units are delivered to a directory that is there in order, up to the first that cannot be
written. -/
theorem deliver_directory (hfield : field.Lawful) (hproper : Path.isProper directory)
    (c : Compilation) (units : List (Located JavaUnit)) (state : σ)
    (hstat : (field.get state).stat directory = .ok .directory)
    (hapart : (units.map fun unit => (field.get state).goal (unit.value.path directory)).Nodup) :
    ∃ k result final,
      deliver c (directoryResolver (Disk.fileSystem field) directory) units state =
        (result, final) ∧
      field.Delivered directory c units k state result final := by
  -- Later units find the directory, and the files of the units before them are not theirs.
  induction units generalizing state with
  | nil =>
      refine ⟨0, .ok (), state, rfl, field.get state, (hfield.set_get state).symm, ?_,
        .inl ⟨rfl, rfl⟩⟩
      exact Disk.stores_nil _ directory
  | cons unit units ih =>
      rw [List.map_cons, List.nodup_cons] at hapart
      obtain ⟨hfirst, hothers⟩ := hapart
      rw [deliver_cons_apply, deliverUnit_directory hfield hproper hstat, fileSink_apply]
      obtain ⟨-, -, mid, hwrite, hwritten⟩ | ⟨-, error, hfailed⟩ :=
        Disk.fileSystem_write_cases field (unit.value.path directory) unit.value.text state
      · have hkeeps := Disk.keeps_write hwrite
        have hmid := hfield.get_set mid state
        obtain ⟨k, result, final, hdeliver, later, rfl, hstores, hend⟩ :=
          ih (field.set mid state) (by rw [hmid]; exact hkeeps.stat hstat)
            (by simpa only [hmid, hkeeps.goal] using hothers)
        rw [hmid] at hstores
        refine ⟨k + 1, result, _, by rw [hwritten]; exact hdeliver, later,
          hfield.set_set later mid state, ?_, ?_⟩
        · refine hstores.cons hwrite fun other hother hsame => hfirst ?_
          obtain ⟨located, hlocated, rfl⟩ := List.mem_map.1 (List.mem_of_mem_take hother)
          exact List.mem_map.2 ⟨located, hlocated, hsame.symm⟩
        · rcases hend with ⟨hlength, hresult⟩ | ⟨next, error, hnext, hfailed, hresult⟩
          · exact .inl ⟨by rw [hlength, List.length_cons], hresult⟩
          · exact .inr ⟨next, error, hnext, hfailed, hresult⟩
      · refine ⟨0, _, state, by rw [hfailed]; rfl, field.get state, (hfield.set_get state).symm,
          Disk.stores_nil _ directory, .inr ⟨unit, error, rfl, hfailed, rfl⟩⟩

/-- A delivery makes the directory first and then finds it. -/
theorem deliver_of_made (hfield : field.Lawful) {made : σ} (c : Compilation)
    (hmade : (Disk.fileSystem field).makeDirectories .asked directory state = (.ok (), made))
    {units : List (Located JavaUnit)} (hunits : units ≠ []) :
    deliver c (directoryResolver (Disk.fileSystem field) directory) units state =
      deliver c (directoryResolver (Disk.fileSystem field) directory) units made := by
  obtain ⟨hproper, disk, hdisk, rfl⟩ := Disk.fileSystem_makeDirectories_eq_ok_iff.1 hmade
  have hstat := Disk.stat_of_makeDirectories hdisk
  cases units with
  | nil => exact absurd rfl hunits
  | cons unit units =>
      have hunit : deliverUnit (directoryResolver (Disk.fileSystem field) directory) unit.value
          state = fileSink (Disk.fileSystem field) (unit.value.path directory) unit.value.text
            (field.set disk state) := by
        rw [deliverUnit_apply, directoryResolver, bind_apply, hmade]
        rfl
      rw [deliver_cons_apply, deliver_cons_apply, hunit,
        deliverUnit_directory hfield hproper (by rwa [hfield.get_set])]

end

/-! ## Programs -/

/-- The files of units stand in a directory, each under the name of its unit and with its text.
There is a directory at every place on the way, and nothing else has changed. -/
structure Disk.Receives (disk : Disk) (directory : String) (units : List JavaUnit)
    (later : Disk) : Prop where
  home : later.home = disk.home
  way : ∀ place, disk.Passes directory place → later.get? place = some .directory
  file : ∀ unit ∈ units, later.get? (disk.goal directory ++ [javaFileName unit.name]) =
    some (.file (Text.Utf8.encode unit.text))
  read : ∀ unit ∈ units, later.read (Path.join directory (javaFileName unit.name)) =
    .ok (Text.Utf8.encode unit.text)
  other : ∀ place, (∀ unit ∈ units, place ≠ disk.goal directory ++ [javaFileName unit.name]) →
    later.get? place = disk.get? place ∨
      disk.get? place = none ∧ later.get? place = some .directory ∧ disk.Passes directory place

/-- Units that are stored where directories have grown are received. -/
theorem Disk.Stores.receives {disk made later : Disk} {directory : String} {units : List JavaUnit}
    (h : made.Stores directory units later) (hgrows : disk.Grows directory made)
    (hstat : made.stat directory = .ok .directory)
    (hnames : ∀ unit ∈ units, isIdentifier unit.name) : disk.Receives directory units later := by
  have hgoal : ∀ unit ∈ units, made.goal (unit.path directory) =
      disk.goal directory ++ [javaFileName unit.name] := fun unit hunit => by
    rw [goal_path made directory (hnames unit hunit), hgrows.keeps.goal]
  refine ⟨h.keeps.home.trans hgrows.home, fun place hplace => ?_, fun unit hunit => ?_, h.read,
    fun place hplace => ?_⟩
  · have hrooted := (rooted_of_stat hstat).2 place (hgrows.keeps.passes_iff.2 hplace)
    exact h.keeps.directory place hrooted.get?
  · rw [← hgoal unit hunit]
    exact h.file unit hunit
  · rw [h.other place fun unit hunit => by rw [hgoal unit hunit]; exact hplace unit hunit]
    exact hgrows.place place

namespace Program

variable {σ : Type} {field : DiskField σ} {directory : String} {state made : σ}
  {program : Program} {after : Compilation} {decls : List Decl} {units : List JavaUnit}

/-- The first `k` units were stored in a directory. They are all, or the next one cannot be written
and the error says so at its declaration. -/
def Stored (field : DiskField σ) (directory : String) (decls : List Decl) (units : List JavaUnit)
    (k : Nat) (state : σ) (result : Except Stop (List JavaUnit)) (final : σ) : Prop :=
  ∃ later, final = field.set later state ∧
    (field.get state).Stores directory (units.take k) later ∧
    (k = units.length ∧ result = .ok units ∨
      ∃ unit decl error refusal, units[k]? = some unit ∧ decls[k]? = some decl ∧
        (Disk.fileSystem field).write (unit.path directory) unit.text final =
          (.error error, final) ∧
        result = .error (.refused refusal) ∧ refusal.Undelivered decl unit (.error error))

/-- Units that could all be written before the first was written are all stored. -/
theorem Stored.all {result : Except Stop (List JavaUnit)} {final : σ} {k : Nat}
    (h : Stored field directory decls units k state result final) (hfield : field.Lawful)
    (hapart : (units.map fun unit => (field.get state).goal (unit.path directory)).Nodup)
    (hwrite : ∀ unit ∈ units,
      ((Disk.fileSystem field).write (unit.path directory) unit.text state).1 = .ok ()) :
    result = .ok units ∧
      ∃ later, final = field.set later state ∧ (field.get state).Stores directory units later := by
  obtain ⟨later, rfl, hstores, hend⟩ := h
  rcases hend with ⟨rfl, rfl⟩ | ⟨unit, decl, failure, error, hunit, -, hfailed, -⟩
  · rw [List.take_length] at hstores
    exact ⟨rfl, later, rfl, hstores⟩
  · -- What can be written at first can be written after other files.
    obtain ⟨hproper, hwritable⟩ :=
      Disk.fileSystem_write_eq_ok_iff.1 (hwrite unit (List.mem_of_getElem? hunit))
    have hlater : unit ∈ units.drop k := List.mem_of_getElem? (i := 0) (by simpa using hunit)
    have hstill := hstores.writable hapart hlater hwritable
    have hwritten : ((Disk.fileSystem field).write (unit.path directory) unit.text
        (field.set later state)).1 = .ok () :=
      Disk.fileSystem_write_eq_ok_iff.2 ⟨hproper, (hfield.get_set later state).symm ▸ hstill⟩
    rw [hfailed] at hwritten
    cases hwritten

/-- The directory of a program is made before the first unit and then found. -/
theorem compile_of_made (hfield : field.Lawful) (hrun : program.start.run = (after, .ok units))
    (hunits : units ≠ [])
    (hmade : (Disk.fileSystem field).makeDirectories .asked directory state = (.ok (), made)) :
    program.compile (Disk.fileSystem field) (.directory directory) state =
      program.compile (Disk.fileSystem field) (.directory directory) made := by
  have hlocated : locateUnits after units ≠ [] := by
    simpa [locateUnits] using hunits
  rw [compile_of_run hrun (Target.resolve_directory directory),
    compile_of_run hrun (Target.resolve_directory directory),
    deliver_of_made hfield after hmade hlocated]

/-- The units of a program that compiles are stored in a directory that is there. -/
theorem compile_directory (hfield : field.Lawful)
    (hcompletes : program.start.Completes after units) (hnone : after.diagnostics = [])
    (hproper : Path.isProper directory) (hstat : (field.get state).stat directory = .ok .directory) :
    ∃ decls k result final, program.start.Declares decls ∧
      units.map JavaUnit.name = decls.map Decl.name ∧
      program.compile (Disk.fileSystem field) (.directory directory) state = (result, final) ∧
      Stored field directory decls units k state result final := by
  have hfresh : program.start.Fresh := ⟨rfl, rfl⟩
  obtain ⟨decls, bound, hdeclares, hnames, hbound, hpositions⟩ :=
    Compilation.declares_of_completes hfresh hcompletes
  obtain ⟨found, hcompiles⟩ := Compilation.compiles_of_completes hfresh hcompletes
  have hlength : units.length = decls.length := by
    simpa using congrArg List.length hnames
  obtain ⟨hvalues, hplaces⟩ := Compilation.located_locateUnits hlength hbound hpositions
  -- Files of different names stand at different places.
  have hapart : ((locateUnits after units).map fun unit =>
      (field.get state).goal (unit.value.path directory)).Nodup := by
    have hnodup := (field.get state).nodup_goals directory hcompiles.isIdentifier
      hcompiles.nodup_names
    rwa [← hvalues, List.map_map] at hnodup
  obtain ⟨k, outcome, final, hdeliver, later, hfinal, hstores, hend⟩ :=
    deliver_directory hfield hproper after (locateUnits after units) state hstat hapart
  rw [hvalues] at hstores
  rw [compile_of_run (Compilation.run_of_completes hcompletes)
    (Target.resolve_directory directory), hdeliver]
  rcases hend with ⟨hk, hresult⟩ | ⟨unit, error, hunit, hfailed, hresult⟩
  · refine ⟨decls, k, .ok units, final, hdeclares, hnames, by rw [hresult], later, hfinal, hstores,
      .inl ⟨?_, rfl⟩⟩
    rw [hk, ← congrArg List.length hvalues, List.length_map]
  · -- A unit that is not written stands where its declaration does.
    have hat : decls[k]?.map Decl.position = some unit.position := by
      rw [← List.getElem?_map, ← hplaces, List.getElem?_map, hunit]
      rfl
    obtain ⟨decl, hdecl, hposition⟩ := Option.map_eq_some_iff.1 hat
    have hsaid : (Failure.error error).message = .ok error.message := rfl
    obtain ⟨refusal, hrefusal, hundelivered⟩ :=
      exists_undelivered hnone hposition.symm hsaid
    refine ⟨decls, k, .error (.refused refusal), final, hdeclares, hnames,
      by rw [hresult, hrefusal], later, hfinal, hstores, .inr ⟨unit.value, decl, error, refusal, ?_,
      hdecl, hfailed, rfl, hundelivered⟩⟩
    rw [← hvalues, List.getElem?_map, hunit]
    rfl

/-- A program delivers all its units if its directory can be made, and each of their files can be
written then. -/
theorem exists_receives (hfield : field.Lawful) (hcompletes : program.start.Completes after units)
    (hnone : after.diagnostics = []) (hunits : units ≠ [])
    (hmade : (Disk.fileSystem field).makeDirectories .asked directory state = (.ok (), made))
    (hwrite : ∀ unit ∈ units,
      ((Disk.fileSystem field).write (unit.path directory) unit.text made).1 = .ok ()) :
    ∃ later, program.compile (Disk.fileSystem field) (.directory directory) state =
        (.ok units, field.set later state) ∧
      (field.get state).Receives directory units later := by
  obtain ⟨found, hcompiles⟩ := Compilation.compiles_of_completes ⟨rfl, rfl⟩ hcompletes
  have hmade' := hmade
  obtain ⟨hproper, disk, hdisk, rfl⟩ := Disk.fileSystem_makeDirectories_eq_ok_iff.1 hmade
  have hstat := Disk.stat_of_makeDirectories hdisk
  have hgrows := (field.get state).grows_makeDirectories directory
  rw [hdisk] at hgrows
  have hthere : (field.get (field.set disk state)).stat directory = .ok .directory := by
    rwa [hfield.get_set]
  obtain ⟨_, k, result, final, -, -, hcompile, hstored⟩ :=
    compile_directory hfield hcompletes hnone hproper hthere
  obtain ⟨rfl, later, rfl, hstores⟩ := hstored.all hfield
    ((field.get (field.set disk state)).nodup_goals directory hcompiles.isIdentifier
      hcompiles.nodup_names) hwrite
  rw [← compile_of_made hfield (Compilation.run_of_completes hcompletes) hunits hmade',
    hfield.set_set] at hcompile
  rw [hfield.get_set] at hstores
  exact ⟨later, hcompile, hstores.receives hgrows hstat hcompiles.isIdentifier⟩

/-- The delivery of a program to a directory. If its source does not compile, or if it compiles but
declares nothing, all is as it was. Otherwise there is one file for each declaration, right in the
directory and no two at one path. When the directory can be made and each of these files can be
written, the program succeeds, each file holds the text of its unit, there is a directory at every
place on the way, and nothing else has changed. -/
theorem compile_stores (hfield : field.Lawful) (program : Program) (directory : String)
    (state : σ) :
    (∃ error, EoJava.compile program.source program.filename = .error (.refused error) ∧
      program.compile (Disk.fileSystem field) (.directory directory) state =
        (.error (.refused error), state)) ∨
    ∃ units decls, EoJava.compile program.source program.filename = .ok units ∧
      program.start.Declares decls ∧ units.map JavaUnit.name = decls.map Decl.name ∧
      (decls = [] → program.compile (Disk.fileSystem field) (.directory directory) state =
        (.ok [], state)) ∧
      (units.map fun unit => Path.join directory (javaFileName unit.name)).Nodup ∧
      (∀ unit ∈ units, (field.get state).goal (Path.join directory (javaFileName unit.name)) =
        (field.get state).goal directory ++ [javaFileName unit.name]) ∧
      (decls ≠ [] → ∀ made,
        (Disk.fileSystem field).makeDirectories .asked directory state = (.ok (), made) →
        (∀ unit ∈ units, ((Disk.fileSystem field).write
          (Path.join directory (javaFileName unit.name)) unit.text made).1 = .ok ()) →
        ∃ later, program.compile (Disk.fileSystem field) (.directory directory) state =
            (.ok units, field.set later state) ∧
          (field.get state).Receives directory units later) := by
  have hfresh : program.start.Fresh := ⟨rfl, rfl⟩
  obtain ⟨after, units, hcompletes, hnone⟩ | ⟨stage, after, d, hfails, hone, -⟩ :=
    Compilation.completes_or_fails hfresh
  · have hrun := Compilation.run_of_completes hcompletes
    obtain ⟨decls, -, hdeclares, hnames, -⟩ := Compilation.declares_of_completes hfresh hcompletes
    obtain ⟨found, hcompiles⟩ := Compilation.compiles_of_completes hfresh hcompletes
    have hlength : units.length = decls.length := by
      simpa using congrArg List.length hnames
    have hgoals := (field.get state).nodup_goals directory hcompiles.isIdentifier
      hcompiles.nodup_names
    have hpaths : (units.map fun unit => (field.get state).goal (unit.path directory)) =
        (units.map fun unit => unit.path directory).map (field.get state).goal := by
      rw [List.map_map]
      rfl
    refine .inr ⟨units, decls, congrArg Prod.snd hrun, hdeclares, hnames, fun hempty => ?_, ?_,
      fun unit hunit => Disk.goal_path _ _ (hcompiles.isIdentifier unit hunit),
      fun hsome made hmade hwrite => ?_⟩
    · obtain rfl : units = [] := List.length_eq_zero_iff.1 (by rw [hlength, hempty]; rfl)
      exact compile_of_run hrun (Target.resolve_directory directory) state
    · rw [hpaths] at hgoals
      exact hgoals.of_map
    · have hunits : units ≠ [] := by
        rintro rfl
        exact hsome (List.length_eq_zero_iff.1 hlength.symm)
      exact exists_receives hfield hcompletes hnone hunits hmade hwrite
  · have hrun := Compilation.run_of_failsAt hfails
    rw [Compilation.stop_of_diagnostics hone] at hrun
    exact .inl ⟨_, congrArg Prod.snd hrun, compile_of_stop hrun _ _ state⟩

/-- An object is delivered to a directory, which is made together with the one above it. -/
theorem compile_stores_object :
    let field : DiskField Disk := ⟨id, fun disk _ => disk⟩
    let program : Program := { source := "object A:\n  T @x\n" }
    field.Lawful ∧ ∃ units later, units.map JavaUnit.name = ["A"] ∧
      program.compile (Disk.fileSystem field) (.directory "src/eo") {} = (.ok units, later) ∧
      ({} : Disk).Receives "src/eo" units later := by
  intro field program
  have hfield : field.Lawful := ⟨fun _ _ => rfl, fun _ => rfl, fun _ _ _ => rfl⟩
  let made : Disk := { entries := [(["src"], .directory), (["src", "eo"], .directory)] }
  have hmade : (Disk.fileSystem field).makeDirectories .asked "src/eo" {} = (.ok (), made) :=
    Disk.fileSystem_makeDirectories_eq_ok_iff.2 ⟨by decide, made, by decide +kernel, rfl⟩
  have hunits : ((EoJava.compile program.source program.filename).toOption.getD []).map
      JavaUnit.name = ["A"] := by
    decide +kernel
  have hwrite : ∀ unit ∈ (EoJava.compile program.source program.filename).toOption.getD [],
      ((Disk.fileSystem field).write (Path.join "src/eo" (javaFileName unit.name)) unit.text
        made).1 = .ok () := by
    decide +kernel
  obtain ⟨error, hcompile, -⟩ | ⟨units, decls, hcompile, -, hnames, -, -, -, hstores⟩ :=
    compile_stores hfield program "src/eo" {}
  · simp [hcompile, Except.toOption] at hunits
  · rw [hcompile] at hunits hwrite
    have hsome : decls ≠ [] := by
      rintro rfl
      exact absurd (hunits.symm.trans hnames) (List.cons_ne_nil _ _)
    obtain ⟨later, hdelivered, hreceives⟩ := hstores hsome made hmade hwrite
    exact ⟨hfield, units, later, hunits, hdelivered, hreceives⟩

end Program

end EoJava
