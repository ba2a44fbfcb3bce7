import EoJava.Proofs.Breakdown
import EoJava.Proofs.Disk.Paths

/-!
# Directories of a disk

Following a path finds a directory at every place that it passes. Making directories adds the ones
that are missing on the way of a path and changes nothing else, also when it fails half way
(`grows_makeDirectories`), and once it succeeds there is nothing left to be made
(`makeDirectories_of_stat`).
-/

namespace EoJava.Disk

variable {disk later : Disk} {path : String} {place : Place}

/-! ## Entries -/

/-- The home and the places above it are directories. -/
theorem get?_of_isPrefix (h : place <+: disk.home) : disk.get? place = some .directory :=
  if_pos (List.isPrefixOf_iff_prefix.2 h)

/-- An entry does not move the home. -/
@[simp]
theorem home_put (disk : Disk) (place : Place) (entry : Entry) :
    (disk.put place entry).home = disk.home := by
  unfold put
  split <;> rfl

/-- Changing entries in their places changes what is found there. -/
theorem lookup_map_snd (entries : List (Place × Entry)) (change : Place → Entry → Entry)
    (other : Place) :
    (entries.map fun (at?, old) => (at?, change at? old)).lookup other =
      (entries.lookup other).map (change other) := by
  induction entries with
  | nil => rfl
  | cons found entries ih =>
      obtain ⟨at?, old⟩ := found
      rw [List.map_cons, List.lookup_cons, List.lookup_cons, ih]
      cases hother : other == at? with
      | true => rw [beq_iff_eq.1 hother]; rfl
      | false => rfl

/-- The entry that is put is found at its place, and all others where they were. -/
theorem lookup_put (disk : Disk) (place : Place) (entry : Entry) (other : Place) :
    (disk.put place entry).entries.lookup other =
      if other = place then some entry else disk.entries.lookup other := by
  unfold put
  split
  · next hsome =>
      rw [lookup_map_snd disk.entries fun at? old => if at? = place then entry else old]
      obtain ⟨old, hold⟩ := Option.isSome_iff_exists.1 hsome
      by_cases hother : other = place
      · simp [hother, hold]
      · simp [hother]
  · next hnone =>
      rw [List.lookup_append]
      by_cases hother : other = place
      · simp [hother, Option.not_isSome_iff_eq_none.1 hnone]
      · simp [hother, List.lookup_cons, beq_false_of_ne hother]

/-- An entry that is put where there was no directory is found there. -/
theorem get?_put_self (h : disk.get? place ≠ some .directory) (entry : Entry) :
    (disk.put place entry).get? place = some entry := by
  have habove : ¬place.isPrefixOf disk.home := fun hprefix =>
    h (get?_of_isPrefix (List.isPrefixOf_iff_prefix.1 hprefix))
  rw [get?, home_put, if_neg habove, lookup_put, if_pos rfl]

/-- An entry that is put at a place changes no other place. -/
theorem get?_put_of_ne (disk : Disk) {other : Place} (h : other ≠ place) (entry : Entry) :
    (disk.put place entry).get? other = disk.get? other := by
  rw [get?, get?, home_put, lookup_put, if_neg h]

/-! ## Directories that are kept -/

/-- A disk has the home of another one, and all its directories. -/
structure Keeps (disk later : Disk) : Prop where
  home : later.home = disk.home
  directory : ∀ place, disk.get? place = some .directory → later.get? place = some .directory

/-- A disk keeps its own directories. -/
theorem Keeps.refl (disk : Disk) : disk.Keeps disk :=
  ⟨rfl, fun _ => id⟩

/-- Directories that are kept and kept again are kept. -/
theorem Keeps.trans {last : Disk} (h : disk.Keeps later) (hlater : later.Keeps last) :
    disk.Keeps last :=
  ⟨hlater.home.trans h.home, fun place hplace => hlater.directory _ (h.directory place hplace)⟩

/-- An entry that is put where there was no directory leaves all directories. -/
theorem keeps_put (h : disk.get? place ≠ some .directory) (entry : Entry) :
    disk.Keeps (disk.put place entry) := by
  refine ⟨home_put .., fun other hother => ?_⟩
  have hne : other ≠ place := by
    rintro rfl
    exact h hother
  rw [get?_put_of_ne _ hne]
  exact hother

/-- Where a path starts is decided by the home. -/
theorem Keeps.start (h : disk.Keeps later) (path : String) : later.start path = disk.start path := by
  rw [Disk.start, Disk.start, h.home]

/-- Where a path leads is decided by the home. -/
theorem Keeps.goal (h : disk.Keeps later) (path : String) : later.goal path = disk.goal path := by
  rw [Disk.goal, Disk.goal, h.start]

/-- The places on the way of a path are decided by the home. -/
theorem Keeps.passes_iff (h : disk.Keeps later) : later.Passes path place ↔ disk.Passes path place := by
  rw [Passes, Passes, h.start]

/-! ## Following a path -/

/-- There are directories at a place and at all places above it. -/
def Rooted (disk : Disk) (place : Place) : Prop :=
  ∀ above, above <+: place → disk.get? above = some .directory

/-- There is a directory at a place that is rooted. -/
theorem Rooted.get? (h : disk.Rooted place) : disk.get? place = some .directory :=
  h place (List.prefix_refl place)

/-- The places above one that is rooted are rooted. -/
theorem Rooted.of_prefix (h : disk.Rooted place) {above : Place} (habove : above <+: place) :
    disk.Rooted above :=
  fun _ hbelow => h _ (hbelow.trans habove)

/-- A directory in a directory that is rooted is rooted. -/
theorem Rooted.concat (h : disk.Rooted place) {name : String}
    (hname : disk.get? (place ++ [name]) = some .directory) : disk.Rooted (place ++ [name]) := by
  intro above habove
  rcases List.prefix_concat_iff.1 habove with rfl | habove
  · exact hname
  · exact h above habove

/-- A path starts at a place that is rooted. -/
theorem rooted_start (disk : Disk) (path : String) : disk.Rooted (disk.start path) := by
  intro above habove
  refine get?_of_isPrefix ?_
  unfold start at habove
  split at habove
  · rw [List.prefix_nil.1 habove]
    exact List.nil_prefix
  · exact habove

/-- A name that is found is at its place. -/
theorem look_eq_ok_iff {directory : Place} {name : String} {found : Option Entry} :
    disk.look directory name = .ok found ↔
      name.utf8ByteSize ≤ Path.nameLimit ∧ disk.get? (directory ++ [name]) = found := by
  unfold look
  split
  · next hlong => simp [Nat.not_le.2 hlong]
  · next hshort => simp [Nat.not_lt.1 hshort]

/-- Names are followed from directory to directory. -/
theorem rooted_of_descend {directory : Place} {names : List String}
    (h : disk.descend directory names = .ok place) (hroot : disk.Rooted directory) :
    place = Path.walk directory names ∧
      ∀ taken, taken <+: names → disk.Rooted (Path.walk directory taken) := by
  induction names generalizing directory with
  | nil =>
      cases h
      refine ⟨rfl, fun taken htaken => ?_⟩
      rw [List.prefix_nil.1 htaken]
      exact hroot
  | cons name names ih =>
      -- Wherever the first name leads, there is a directory, from which the others are followed.
      have hstep : disk.Rooted (Path.step directory name) ∧
          disk.descend (Path.step directory name) names = .ok place := by
        rw [descend] at h
        unfold Path.step
        split at h
        · next hdot => exact ⟨by rwa [if_pos hdot], by rwa [if_pos hdot]⟩
        · next hdot =>
            rw [if_neg hdot]
            split at h
            · next hdots =>
                rw [if_pos hdots]
                exact ⟨hroot.of_prefix (List.dropLast_prefix directory), h⟩
            · next hdots =>
                rw [if_neg hdots]
                split at h
                · cases h
                · cases h
                · cases h
                · next hlook =>
                    exact ⟨hroot.concat (look_eq_ok_iff.1 hlook).2, h⟩
      obtain ⟨hplace, hrooted⟩ := ih hstep.2 hstep.1
      refine ⟨hplace, fun taken htaken => ?_⟩
      cases taken with
      | nil => exact hroot
      | cons first taken =>
          obtain ⟨rfl, hrest⟩ := List.cons_prefix_cons.1 htaken
          exact hrooted taken hrest

/-- If directories are kept, names lead down to the same directory. -/
theorem Keeps.descend (h : disk.Keeps later) {directory : Place} {names : List String}
    (hdescend : disk.descend directory names = .ok place) :
    later.descend directory names = .ok place := by
  induction names generalizing directory with
  | nil => exact hdescend
  | cons name names ih =>
      rw [Disk.descend] at hdescend ⊢
      split at hdescend
      · next hdot =>
          rw [if_pos hdot]
          exact ih hdescend
      · next hdot =>
          rw [if_neg hdot]
          split at hdescend
          · next hdots =>
              rw [if_pos hdots]
              exact ih hdescend
          · next hdots =>
              rw [if_neg hdots]
              split at hdescend
              · cases hdescend
              · cases hdescend
              · cases hdescend
              · next hlook =>
                  obtain ⟨hsize, hget⟩ := look_eq_ok_iff.1 hlook
                  rw [look_eq_ok_iff.2 ⟨hsize, h.directory _ hget⟩]
                  exact ih hdescend

/-- What a last name leads to in a directory. -/
def destination (directory : Place) (last : String) (slash : Bool) : Destination :=
  if last = "." then .directory directory
  else if last = ".." then .directory directory.dropLast
  else .named directory last slash

/-- Following a path takes the last of its names apart from the others. -/
theorem follow_eq {names : List String} {last : String} (hnames : Path.names path = names ++ [last])
    (hempty : path ≠ "") (hsize : path.utf8ByteSize ≤ Path.limit) :
    disk.follow path = disk.descend (disk.start path) names >>= fun directory =>
      .ok (destination directory last (Path.endsWithSlash path)) := by
  rw [follow, if_neg (by simpa using hempty), if_neg (Nat.not_lt.2 hsize), hnames]
  simp only [List.getLast?_concat, List.dropLast_concat, destination]
  refine bind_congr fun directory => ?_
  split
  · rfl
  · split <;> rfl

/-- A path that is followed is not empty and not too long. -/
theorem size_of_follow {found : Destination} (h : disk.follow path = .ok found) :
    path ≠ "" ∧ path.utf8ByteSize ≤ Path.limit := by
  unfold follow at h
  split at h
  · cases h
  · next hempty =>
      split at h
      · cases h
      · next hsize => exact ⟨by simpa using hempty, Nat.not_lt.1 hsize⟩

/-- A path without names leads to the root. -/
theorem follow_root (hempty : path ≠ "") (hsize : path.utf8ByteSize ≤ Path.limit)
    (hnames : Path.names path = []) : disk.follow path = .ok (.directory []) := by
  rw [follow, if_neg (by simpa using hempty), if_neg (Nat.not_lt.2 hsize), hnames]
  rfl

/-- There is a directory at every place that a path passes, its goal apart. -/
def Open (disk : Disk) (path : String) : Prop :=
  ∀ place, disk.Passes path place → place = disk.goal path ∨ disk.Rooted place

/-- What following a path finds: a directory at its goal, or a directory and a name in it. -/
inductive Leads (disk : Disk) (path : String) : Destination → Prop where
  | directory {place : Place} (hgoal : disk.goal path = place) (hrooted : disk.Rooted place) :
      Leads disk path (.directory place)
  | named {directory : Place} {name : String} {slash : Bool}
      (hgoal : disk.goal path = directory ++ [name]) (hrooted : disk.Rooted directory) :
      Leads disk path (.named directory name slash)

/-- A path that can be followed passes directories only and leads to its goal. -/
theorem leads_of_follow {found : Destination} (h : disk.follow path = .ok found) :
    disk.Open path ∧ disk.Leads path found := by
  obtain ⟨hempty, hsize⟩ := size_of_follow h
  have hstart := disk.rooted_start path
  rcases List.eq_nil_or_concat' (Path.names path) with hnames | ⟨names, last, hnames⟩
  · have hroot : disk.start path = [] := if_pos (Path.isAbsolute_of_names_eq_nil hempty hnames)
    have hgoal : disk.goal path = disk.start path := by rw [goal, hnames, Path.walk_nil]
    rw [follow_root hempty hsize hnames] at h
    cases h
    refine ⟨fun place hpasses => .inl ?_, .directory (hgoal.trans hroot) ?_⟩
    · obtain ⟨taken, htaken, hplace⟩ := hpasses
      rw [hnames, List.prefix_nil] at htaken
      rw [hplace, htaken, hgoal, Path.walk_nil]
    · rwa [← hroot]
  · rw [follow_eq hnames hempty hsize] at h
    obtain ⟨directory, hdescend, h⟩ := exists_of_bind_eq_ok h
    cases h
    obtain ⟨rfl, hrooted⟩ := rooted_of_descend hdescend hstart
    have hgoal : disk.goal path = Path.step (Path.walk (disk.start path) names) last := by
      rw [goal, hnames, Path.walk_append, Path.walk_cons, Path.walk_nil]
    refine ⟨fun place hpasses => ?_, ?_⟩
    · obtain ⟨taken, htaken, hplace⟩ := hpasses
      rw [hnames, List.prefix_concat_iff] at htaken
      rcases htaken with rfl | htaken
      · exact .inl (by rw [hplace, goal, hnames])
      · exact .inr (hplace ▸ hrooted taken htaken)
    · have hbase := hrooted names (List.prefix_refl names)
      unfold Path.step at hgoal
      unfold destination
      split
      · next hdot => exact .directory (by rwa [if_pos hdot] at hgoal) hbase
      · next hdot =>
          rw [if_neg hdot] at hgoal
          split
          · next hdots =>
              rw [if_pos hdots] at hgoal
              exact .directory hgoal (hbase.of_prefix (List.dropLast_prefix _))
          · next hdots => exact .named (by rwa [if_neg hdots] at hgoal) hbase

/-- A path leads where it led before as long as directories are kept. -/
theorem Keeps.follow (h : disk.Keeps later) {found : Destination}
    (hfollow : disk.follow path = .ok found) : later.follow path = .ok found := by
  obtain ⟨hempty, hsize⟩ := size_of_follow hfollow
  rcases List.eq_nil_or_concat' (Path.names path) with hnames | ⟨names, last, hnames⟩
  · rw [follow_root hempty hsize hnames] at hfollow ⊢
    exact hfollow
  · rw [follow_eq hnames hempty hsize] at hfollow ⊢
    obtain ⟨directory, hdescend, hfound⟩ := exists_of_bind_eq_ok hfollow
    rw [h.start, h.descend hdescend, ok_bind, hfound]

/-- A path leads to a directory if following it finds one, or a name that one stands under. -/
theorem stat_eq_directory_iff : disk.stat path = .ok .directory ↔
    ∃ found, disk.follow path = .ok found ∧
      (∀ directory name slash, found = .named directory name slash →
        disk.look directory name = .ok (some .directory)) := by
  constructor
  · intro h
    obtain ⟨found, hfollow, h⟩ := exists_of_bind_eq_ok h
    refine ⟨found, hfollow, ?_⟩
    rintro directory name slash rfl
    obtain ⟨found?, hlook, h⟩ := exists_of_bind_eq_ok h
    rw [hlook]
    rcases found? with _ | ⟨bytes⟩ | _
    · cases h
    · cases slash <;> cases h
    · rfl
  · rintro ⟨found, hfollow, hlook⟩
    rw [stat, hfollow, ok_bind]
    cases found with
    | directory place => rfl
    | named directory name slash =>
        simp only
        rw [hlook directory name slash rfl]
        rfl

/-- A path that leads to a directory passes only places with directories. -/
theorem rooted_of_stat (h : disk.stat path = .ok .directory) :
    path ≠ "" ∧ ∀ place, disk.Passes path place → disk.Rooted place := by
  obtain ⟨found, hfollow, hlook⟩ := stat_eq_directory_iff.1 h
  obtain ⟨hopen, hleads⟩ := leads_of_follow hfollow
  have hgoal : disk.Rooted (disk.goal path) := by
    cases hleads with
    | directory hgoal hrooted => rwa [hgoal]
    | named hgoal hrooted =>
        rw [hgoal]
        exact hrooted.concat (look_eq_ok_iff.1 (hlook _ _ _ rfl)).2
  refine ⟨(size_of_follow hfollow).1, fun place hplace => ?_⟩
  rcases hopen place hplace with rfl | hrooted
  · exact hgoal
  · exact hrooted

/-- A path that leads to a directory does so as long as directories are kept. -/
theorem Keeps.stat (h : disk.Keeps later) (hstat : disk.stat path = .ok .directory) :
    later.stat path = .ok .directory := by
  obtain ⟨found, hfollow, hlook⟩ := stat_eq_directory_iff.1 hstat
  refine stat_eq_directory_iff.2 ⟨found, h.follow hfollow, fun directory name slash hfound => ?_⟩
  obtain ⟨hsize, hget⟩ := look_eq_ok_iff.1 (hlook directory name slash hfound)
  exact look_eq_ok_iff.2 ⟨hsize, h.directory _ hget⟩

/-! ## Making directories -/

/-- A disk has directories where another one has nothing on the way of a path, and nothing else is
different. -/
structure Grows (disk : Disk) (path : String) (later : Disk) : Prop where
  home : later.home = disk.home
  place : ∀ place, later.get? place = disk.get? place ∨
    disk.get? place = none ∧ later.get? place = some .directory ∧ disk.Passes path place

/-- A disk grows into itself. -/
theorem Grows.refl (disk : Disk) (path : String) : disk.Grows path disk :=
  ⟨rfl, fun _ => .inl rfl⟩

/-- What grows keeps its directories. -/
theorem Grows.keeps (h : disk.Grows path later) : disk.Keeps later := by
  refine ⟨h.home, fun place hplace => ?_⟩
  rcases h.place place with hsame | ⟨hnone, -⟩
  · rwa [hsame]
  · rw [hnone] at hplace
    cases hplace

/-- A disk that grows twice on the way of a path has grown on it. -/
theorem Grows.trans {last : Disk} (h : disk.Grows path later) (hlater : later.Grows path last) :
    disk.Grows path last := by
  refine ⟨hlater.home.trans h.home, fun place => ?_⟩
  rcases hlater.place place with hlast | ⟨hnone, hlast, hpasses⟩
  · rw [hlast]
    exact h.place place
  · rcases h.place place with hsame | ⟨-, hdirectory, -⟩
    · exact .inr ⟨hsame ▸ hnone, hlast, h.keeps.passes_iff.1 hpasses⟩
    · rw [hnone] at hdirectory
      cases hdirectory

/-- A directory that is made stands at the goal of its path, where there was nothing. -/
theorem put_of_makeDirectory (h : disk.makeDirectory path = .ok later) :
    later = disk.put (disk.goal path) .directory ∧ disk.get? (disk.goal path) = none ∧
      later.stat path = .ok .directory := by
  obtain ⟨found, hfollow, h⟩ := exists_of_bind_eq_ok h
  cases found with
  | directory place => cases h
  | named directory name slash =>
      obtain ⟨found?, hlook, h⟩ := exists_of_bind_eq_ok h
      cases found? with
      | some entry => cases h
      | none =>
          cases h
          obtain ⟨-, hleads⟩ := leads_of_follow hfollow
          obtain ⟨hsize, hnone⟩ := look_eq_ok_iff.1 hlook
          cases hleads with
          | named hgoal hrooted =>
              have hne : disk.get? (directory ++ [name]) ≠ some .directory := by simp [hnone]
              refine ⟨by rw [hgoal], by rwa [hgoal], ?_⟩
              refine stat_eq_directory_iff.2 ⟨_, (keeps_put hne _).follow hfollow, ?_⟩
              rintro _ _ _ ⟨⟩
              exact look_eq_ok_iff.2 ⟨hsize, get?_put_self hne _⟩

/-- Making a directory lets a disk grow on the way of its path. -/
theorem grows_of_makeDirectory (h : disk.makeDirectory path = .ok later) :
    disk.Grows path later := by
  obtain ⟨rfl, hnone, -⟩ := put_of_makeDirectory h
  have hne : disk.get? (disk.goal path) ≠ some .directory := by simp [hnone]
  refine ⟨home_put .., fun place => ?_⟩
  by_cases hplace : place = disk.goal path
  · subst hplace
    exact .inr ⟨hnone, get?_put_self hne _, _, List.prefix_refl _, rfl⟩
  · exact .inl (get?_put_of_ne disk hplace _)

/-- If a directory is made where one is missing, the disk grows, and the directory is there. -/
theorem grows_of_ensureDirectory {below : Bool}
    (h : disk.ensureDirectory below path = .ok (some later)) :
    disk.Grows path later ∧ later.stat path = .ok .directory := by
  unfold ensureDirectory at h
  split at h
  · next hmade =>
      cases h
      exact ⟨grows_of_makeDirectory hmade, (put_of_makeDirectory hmade).2.2⟩
  · cases h
  · cases h
  · obtain ⟨entry, hstat, h⟩ := exists_of_bind_eq_ok h
    cases entry with
    | file bytes => cases h
    | directory =>
        cases h
        exact ⟨.refl disk path, hstat⟩

/-- A path passes all that its parent passes, an empty parent apart. -/
theorem Passes.of_parent {parent last : String} (hparent : parent ≠ "")
    (h : disk.Passes parent place) : disk.Passes (parent ++ "/" ++ last) place := by
  obtain ⟨taken, htaken, hplace⟩ := h
  have habsolute : Path.isAbsolute (parent ++ "/" ++ last) = Path.isAbsolute parent := by
    rw [String.append_assoc, Path.isAbsolute_append hparent]
  refine ⟨taken, ?_, ?_⟩
  · rw [Path.names_append]
    exact htaken.trans (List.prefix_append ..)
  · rw [hplace, Disk.start, Disk.start, habsolute]

/-- What grows on the way of its parent grows on the way of a path. -/
theorem Grows.of_parent {path parent : List Char} (hparent : Path.parent? path = some parent)
    (h : disk.Grows (String.ofList parent) later) : disk.Grows (String.ofList path) later := by
  obtain ⟨last, rfl⟩ := Path.eq_of_parent? hparent
  have hpath : String.ofList (parent ++ '/' :: last) =
      String.ofList parent ++ "/" ++ String.ofList last := by
    rw [← String.toList_inj]
    simp
  refine ⟨h.home, fun place => ?_⟩
  rcases h.place place with hsame | ⟨hnone, hdirectory, hpasses⟩
  · exact .inl hsame
  · rw [hpath]
    refine .inr ⟨hnone, hdirectory, hpasses.of_parent ?_⟩
    intro hempty
    -- An empty path passes home only, where there is a directory.
    rw [hempty] at hpasses
    obtain ⟨taken, htaken, rfl⟩ := hpasses
    rw [Path.names_empty, List.prefix_nil] at htaken
    rw [htaken, Path.walk_nil, (rooted_start disk "").get?] at hnone
    cases hnone

/-- Making a directory and those above it adds directories on the way of its path, also when it
fails. -/
theorem grows_ensureAll (disk : Disk) (below : Bool) (path : List Char) :
    disk.Grows (String.ofList path) (disk.ensureAll below path).2 := by
  fun_induction ensureAll disk below path with
  | case1 below path blocked reason hfirst => exact .refl disk _
  | case2 below path later hfirst => exact (grows_of_ensureDirectory hfirst).1
  | case3 below path blocked hfirst hparent => exact .refl disk _
  | case4 below path hfirst parent hparent obstacle later habove ih =>
      rw [habove] at ih
      exact ih.of_parent hparent
  | case5 below path blocked hfirst parent hparent later habove reason hagain ih =>
      rw [habove] at ih
      exact ih.of_parent hparent
  | case6 below path hfirst parent hparent grown habove later hagain ih =>
      rw [habove] at ih
      exact (ih.of_parent hparent).trans (grows_of_ensureDirectory hagain).1
  | case7 below path blocked hfirst parent hparent later habove hagain ih =>
      rw [habove] at ih
      exact ih.of_parent hparent

/-- Making directories lets a disk grow, also if it fails half way. -/
theorem grows_makeDirectories (disk : Disk) (path : String) :
    disk.Grows path (disk.makeDirectories path).2 := by
  have h := grows_ensureAll disk false path.toList
  rwa [String.ofList_toList] at h

/-- Once its directories are made, a path leads to one. -/
theorem stat_of_makeDirectories (h : disk.makeDirectories path = (.ok (), later)) :
    later.stat path = .ok .directory := by
  rw [makeDirectories, ensureAll, String.ofList_toList] at h
  split at h
  · cases h
  · next hfirst =>
      cases h
      exact (grows_of_ensureDirectory hfirst).2
  · split at h
    · cases h
    · split at h
      · cases h
      · split at h
        · cases h
        · next hagain =>
            cases h
            exact (grows_of_ensureDirectory hagain).2
        · cases h

/-- No directory is made where there is one. -/
theorem makeDirectories_of_stat (h : disk.stat path = .ok .directory) :
    disk.makeDirectories path = (.ok (), disk) := by
  have hmake : disk.makeDirectory path = .error .alreadyExists := by
    obtain ⟨found, hfollow, hlook⟩ := stat_eq_directory_iff.1 h
    rw [makeDirectory, hfollow, ok_bind]
    cases found with
    | directory place => rfl
    | named directory name slash =>
        simp only
        rw [hlook directory name slash rfl]
        rfl
  rw [makeDirectories, ensureAll, String.ofList_toList, ensureDirectory, hmake]
  simp only
  rw [h]
  rfl

end EoJava.Disk
