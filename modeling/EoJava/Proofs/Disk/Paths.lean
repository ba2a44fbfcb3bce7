import EoJava.Disk.Basic
import Mathlib.Data.List.Basic

/-!
# Where paths lead

The names in a path lead from place to place, one step for each name. Taking dots out of a path does
not change where it leads (`Path.walk_normalize`), so a path that a name is joined to leads one step
further (`Disk.goal_join`).
-/

namespace EoJava

namespace Path

/-! ## Names -/

/-- A text that can be a name in a path. -/
def IsName (text : String) : Prop :=
  text ≠ "" ∧ '/' ∉ text.toList

theorem split_eq_splitOn (path : List Char) : split path = path.splitOn '/' := by
  induction path with
  | nil => rfl
  | cons c cs ih =>
      rw [split, List.splitOn_cons_eq_if_modifyHead, ih]
      by_cases hc : c = '/'
      · rw [if_pos hc, if_pos (beq_iff_eq.2 hc)]
      · rw [if_neg hc, if_neg (mt beq_iff_eq.1 hc)]
        cases hparts : cs.splitOn '/' with
        | nil => exact absurd hparts (List.splitOn_ne_nil '/' cs)
        | cons part parts => rfl

/-- No part of a path has a slash in it. -/
theorem slash_notMem_split (path : List Char) : ∀ part ∈ split path, '/' ∉ part := by
  fun_induction split path with
  | case1 => simp
  | case2 cs ih => simpa using ih
  | case3 c cs hc hnone ih => simpa using Ne.symm hc
  | case4 c cs hc part parts hparts ih =>
      rw [hparts, List.forall_mem_cons] at ih
      simpa [Ne.symm hc] using ih

/-- The names in a path are those before a slash and those after it. -/
theorem names_append (first second : String) :
    names (first ++ "/" ++ second) = names first ++ names second := by
  have hsplit : split (first.toList ++ '/' :: second.toList) =
      split first.toList ++ split second.toList := by
    simp only [split_eq_splitOn]
    exact List.splitOn_append_cons_self _ _
  simp [names, hsplit]

@[simp]
theorem names_empty : names "" = [] :=
  rfl

theorem names_of_isName {name : String} (h : IsName name) : names name = [name] := by
  have hne : name.toList ≠ [] := mt String.toList_eq_nil_iff.1 h.1
  rw [names, split_eq_splitOn, List.splitOn_eq_singleton h.2]
  simp [hne]

/-- Names with slashes between them are the names in their path. -/
theorem names_intercalate {parts : List String} (h : ∀ name ∈ parts, IsName name) :
    names ("/".intercalate parts) = parts := by
  induction parts with
  | nil => rfl
  | cons name parts ih =>
      obtain ⟨hname, hparts⟩ := List.forall_mem_cons.1 h
      cases parts with
      | nil => exact names_of_isName hname
      | cons next parts =>
          rw [String.intercalate_cons_of_ne_nil (List.cons_ne_nil next parts), names_append,
            names_of_isName hname, ih hparts, List.singleton_append]

theorem isName_of_mem_names {path name : String} (h : name ∈ names path) : IsName name := by
  obtain ⟨part, hpart, rfl⟩ := List.mem_map.1 h
  obtain ⟨hsplit, hne⟩ := List.mem_filter.1 hpart
  refine ⟨by simpa using hne, ?_⟩
  rw [String.toList_ofList]
  exact slash_notMem_split _ _ hsplit

/-- A path without names leads to the root. -/
theorem isAbsolute_of_names_eq_nil {path : String} (hpath : path ≠ "") (h : names path = []) :
    isAbsolute path = true := by
  cases hchars : path.toList with
  | nil => exact absurd (String.toList_eq_nil_iff.1 hchars) hpath
  | cons c cs =>
      by_cases hc : c = '/'
      · simp [isAbsolute, hchars, hc]
      · rw [names, hchars, split, if_neg hc] at h
        cases hparts : split cs <;> simp [hparts] at h

/-- A path is its parent and the text after the last slash. -/
theorem eq_of_parent? {path parent : List Char} (h : parent? path = some parent) :
    ∃ last, path = parent ++ '/' :: last := by
  have hparts := List.takeWhile_append_dropWhile (l := path.reverse) (p := (· != '/'))
  have hslash := List.head?_dropWhile_not (· != '/') path.reverse
  unfold parent? at h
  split at h
  · cases h
  · next c rest hrest =>
      cases h
      have hc : c = '/' := by simpa [hrest] using hslash
      refine ⟨(path.reverse.takeWhile (· != '/')).reverse, ?_⟩
      rw [hrest, hc] at hparts
      simpa using (congrArg List.reverse hparts).symm

/-! ## Steps -/

/-- The place that a name leads to from another one. -/
def step (place : Place) (name : String) : Place :=
  if name = "." then place else if name = ".." then place.dropLast else place ++ [name]

/-- The place that names lead to from another one. -/
def walk (place : Place) (names : List String) : Place :=
  names.foldl step place

@[simp]
theorem walk_nil (place : Place) : walk place [] = place :=
  rfl

@[simp]
theorem walk_cons (place : Place) (name : String) (names : List String) :
    walk place (name :: names) = walk (step place name) names :=
  rfl

@[simp]
theorem walk_append (place : Place) (first second : List String) :
    walk place (first ++ second) = walk (walk place first) second :=
  List.foldl_append

/-- A name that is not a dot or two leads down. -/
theorem step_of_ne {name : String} (hdot : name ≠ ".") (hdots : name ≠ "..") (place : Place) :
    step place name = place ++ [name] := by
  rw [step, if_neg hdot, if_neg hdots]

section

variable {start : Place} {absolute : Bool} {stack : List String} {name : String}

/-- What is put on names is kept or taken back. -/
theorem forall_mem_push {P : String → Prop} (hstack : ∀ kept ∈ stack, P kept)
    (hname : name ≠ "." → P name) : ∀ kept ∈ push absolute stack name, P kept := by
  unfold push
  split
  · exact hstack
  · next hdot =>
      have hmore : ∀ kept ∈ name :: stack, P kept := List.forall_mem_cons.2 ⟨hname hdot, hstack⟩
      split
      · split
        · split
          · exact hmore
          · exact (List.forall_mem_cons.1 hstack).2
        · split
          · exact List.forall_mem_nil _
          · exact List.forall_mem_singleton.2 (hname hdot)
      · exact hmore

/-- A name that is put on others leads one step further. -/
theorem walk_push (hroot : absolute = true → start = []) (hstack : ∀ kept ∈ stack, kept ≠ ".")
    (name : String) :
    walk start (push absolute stack name).reverse = step (walk start stack.reverse) name := by
  unfold push
  split
  · next hdot => rw [step, if_pos hdot]
  · split
    · next hdots =>
        subst hdots
        cases stack with
        | nil =>
            cases absolute with
            | true => rw [hroot rfl]; rfl
            | false => rfl
        | cons top rest =>
            by_cases htop : top = ".."
            · simp [htop]
            · -- The two dots take back the step that the name before them was.
              have hdot : top ≠ "." := (List.forall_mem_cons.1 hstack).1
              simp [htop, hdot, step]
    · simp

theorem walk_foldl_push (hroot : absolute = true → start = []) (hstack : ∀ kept ∈ stack, kept ≠ ".")
    (names : List String) : walk start (names.foldl (push absolute) stack).reverse =
      walk (walk start stack.reverse) names := by
  induction names generalizing stack with
  | nil => rfl
  | cons name names ih =>
      rw [List.foldl_cons, ih (forall_mem_push hstack id), walk_push hroot hstack, walk_cons]

theorem forall_mem_foldl_push {P : String → Prop} {names : List String}
    (hstack : ∀ kept ∈ stack, P kept) (hnames : ∀ name ∈ names, P name) :
    ∀ kept ∈ names.foldl (push absolute) stack, P kept := by
  induction names generalizing stack with
  | nil => exact hstack
  | cons name names ih =>
      obtain ⟨hname, hnames⟩ := List.forall_mem_cons.1 hnames
      exact ih (forall_mem_push hstack fun _ => hname) hnames

end

variable {path : String} {start : Place}

/-- Names from which dots were taken lead where they led before. -/
theorem walk_resolved (hroot : isAbsolute path = true → start = []) :
    walk start (resolved path) = walk start (names path) :=
  walk_foldl_push hroot (List.forall_mem_nil _) _

theorem isName_of_mem_resolved (path : String) : ∀ name ∈ resolved path, IsName name := fun _ h =>
  forall_mem_foldl_push (List.forall_mem_nil _) (fun _ => isName_of_mem_names) _
    (List.mem_reverse.1 h)

/-! ## Joined paths -/

/-- A slash at the end of a path adds no name. -/
theorem names_slash (path : String) (slash : Bool) :
    names (path ++ if slash then "/" else "") = names path := by
  cases slash with
  | false => simp
  | true => simpa using names_append path ""

/-- A slash at the start of a path adds no name. -/
theorem names_root (path : String) (slash : Bool) :
    names ((if slash then "/" else "") ++ path) = names path := by
  cases slash with
  | false => simp
  | true => simpa using names_append "" path

/-- Dots can be taken out of a path without changing where it leads. -/
theorem walk_normalize (hpath : path ≠ "") (hroot : isAbsolute path = true → start = []) :
    walk start (names (normalize path)) = walk start (names path) := by
  have hshown := names_intercalate (isName_of_mem_resolved path)
  have hwalk := walk_resolved hroot
  have hnonempty : path.isEmpty = false := by simpa using hpath
  simp only [normalize, hnonempty]
  cases hempty : ("/".intercalate (resolved path)).isEmpty with
  | true =>
      rw [String.isEmpty_iff.1 hempty] at hshown
      rw [← hwalk, ← hshown]
      cases isAbsolute path with
      | true =>
          have hslash : names "/" = [] := by decide
          simp [hslash]
      | false =>
          have hdot : names "." = ["."] := by decide
          simp [names_slash, hdot, step]
  | false => simp [names_slash, names_root, hshown, hwalk]

theorem isAbsolute_append {path : String} (hpath : path ≠ "") (more : String) :
    isAbsolute (path ++ more) = isAbsolute path := by
  cases hchars : path.toList with
  | nil => exact absurd (String.toList_eq_nil_iff.1 hchars) hpath
  | cons c cs => simp [isAbsolute, hchars]

/-- A name does not start at the root. -/
theorem isAbsolute_of_isName {name : String} (h : IsName name) : isAbsolute name = false := by
  obtain ⟨hne, hslash⟩ := h
  cases hchars : name.toList with
  | nil => exact absurd (String.toList_eq_nil_iff.1 hchars) hne
  | cons c cs =>
      rw [hchars, List.mem_cons, not_or] at hslash
      simpa [isAbsolute, hchars] using Ne.symm hslash.1

theorem isAbsolute_intercalate {parts : List String} (h : ∀ name ∈ parts, IsName name) :
    isAbsolute ("/".intercalate parts) = false := by
  cases parts with
  | nil => rfl
  | cons name parts =>
      obtain ⟨hname, -⟩ := List.forall_mem_cons.1 h
      cases parts with
      | nil => exact isAbsolute_of_isName hname
      | cons next parts =>
          rw [String.intercalate_cons_of_ne_nil (List.cons_ne_nil next parts), String.append_assoc,
            isAbsolute_append hname.1, isAbsolute_of_isName hname]

theorem isAbsolute_normalize (hpath : path ≠ "") :
    isAbsolute (normalize path) = isAbsolute path := by
  have hshown := isAbsolute_intercalate (isName_of_mem_resolved path)
  have hnonempty : path.isEmpty = false := by simpa using hpath
  simp only [normalize, hnonempty]
  cases hempty : ("/".intercalate (resolved path)).isEmpty with
  | true =>
      cases isAbsolute path with
      | true =>
          have hslash : isAbsolute "/" = true := by decide
          simpa using hslash
      | false => exact isAbsolute_append (by decide) _
  | false =>
      have hne : "/".intercalate (resolved path) ≠ "" := by simpa using hempty
      cases isAbsolute path with
      | true => simp [isAbsolute]
      | false => simp [isAbsolute_append hne, hshown]

/-- A name that is joined to a path comes after it, and dots are taken out. -/
theorem join_eq {base name : String} (hname : name ≠ "") :
    join base name = normalize (if base = "" then name else base ++ "/" ++ name) := by
  by_cases hbase : base = ""
  · simp [join, hbase, hname]
  · simp [join, hbase, hname]

end Path

namespace Disk

/-- The place that a path starts at. -/
def start (disk : Disk) (path : String) : Place :=
  if Path.isAbsolute path then [] else disk.home

/-- The place that a path leads to. -/
def goal (disk : Disk) (path : String) : Place :=
  Path.walk (disk.start path) (Path.names path)

/-- A path passes a place: some of its names, from the first one on, lead there. -/
def Passes (disk : Disk) (path : String) (place : Place) : Prop :=
  ∃ taken, taken <+: Path.names path ∧ place = Path.walk (disk.start path) taken

/-- A path without dots leads where it led with them. -/
theorem goal_normalize (disk : Disk) {path : String} (hpath : path ≠ "") :
    disk.goal (Path.normalize path) = disk.goal path := by
  have hstart : disk.start (Path.normalize path) = disk.start path := by
    rw [start, start, Path.isAbsolute_normalize hpath]
  rw [goal, hstart]
  exact Path.walk_normalize hpath fun h => if_pos h

/-- A path that a name is joined to leads to that name in the place it led to before. -/
theorem goal_join (disk : Disk) (base : String) {name : String} (hname : Path.IsName name)
    (hdot : name ≠ ".") (hdots : name ≠ "..") :
    disk.goal (Path.join base name) = disk.goal base ++ [name] := by
  have hnames := Path.names_of_isName hname
  rw [Path.join_eq hname.1, goal_normalize]
  · by_cases hbase : base = ""
    · subst hbase
      have hstart : disk.start name = disk.start "" := by
        rw [start, Path.isAbsolute_of_isName hname]
        rfl
      rw [if_pos rfl, goal, hstart, hnames, Path.walk_cons, Path.step_of_ne hdot hdots]
      rfl
    · have hstart : disk.start (base ++ "/" ++ name) = disk.start base := by
        rw [start, start, String.append_assoc, Path.isAbsolute_append hbase]
      rw [if_neg hbase, goal, hstart, Path.names_append, hnames, Path.walk_append, Path.walk_cons,
        Path.walk_nil, Path.step_of_ne hdot hdots]
      rfl
  · split
    · exact hname.1
    · simp

end Disk

end EoJava
