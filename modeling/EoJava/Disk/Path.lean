/-!
# Paths

A path is a run of names with slashes between them. `normalize` drops empty names and single dots
and lets two dots take back the name before them, and `join` puts one path under another. A path
that climbs above its start keeps the two dots there, unless it starts at the root.
-/

namespace EoJava.Path

/-- The number of bytes that a name in a path may have. -/
def nameLimit : Nat := 255

/-- The number of bytes that a path may have. -/
def limit : Nat := 4095

/-- A path leads somewhere only if it holds no U+0000, which ends a name. -/
def isProper (path : String) : Bool :=
  !path.toList.contains '\x00'

/-- The texts between the slashes of a path. There is always at least one. -/
def split : List Char → List (List Char)
  | [] => [[]]
  | c :: cs =>
    if c = '/' then [] :: split cs
    else
      match split cs with
      | [] => [[c]]
      | part :: parts => (c :: part) :: parts

/-- The names in a path, with the dots. -/
def names (path : String) : List String :=
  ((split path.toList).filter (· != [])).map String.ofList

/-- A path starts at the root. -/
def isAbsolute (path : String) : Bool :=
  path.toList.head? == some '/'

/-- A path ends with a slash. -/
def endsWithSlash (path : String) : Bool :=
  path.toList.getLast? == some '/'

/-- Puts one more name on names that are already free of dots, the last one first. -/
def push (absolute : Bool) (stack : List String) (name : String) : List String :=
  if name = "." then stack
  else if name = ".." then
    match stack with
    | top :: rest => if top = ".." then name :: stack else rest
    | [] => if absolute then [] else [name]
  else name :: stack

/-- The names of a path once dots are resolved. -/
def resolved (path : String) : List String :=
  ((names path).foldl (push (isAbsolute path)) []).reverse

/-- The shortest path to the same place. -/
def normalize (path : String) : String :=
  if path.isEmpty then "."
  else
    let shown := "/".intercalate (resolved path)
    let slash := if endsWithSlash path then "/" else ""
    if shown.isEmpty then
      if isAbsolute path then "/" else "." ++ slash
    else (if isAbsolute path then "/" else "") ++ shown ++ slash

/-- A path under another. -/
def join (base path : String) : String :=
  let given := [base, path].filter (!·.isEmpty)
  if given.isEmpty then "." else normalize ("/".intercalate given)

/-- The text before the last slash of a path, if it has one. -/
def parent? (path : List Char) : Option (List Char) :=
  match path.reverse.dropWhile (· != '/') with
  | [] => none
  | _ :: rest => some rest.reverse

/-- The text before a slash is shorter than the path. -/
theorem length_of_parent? {path parent : List Char} (h : parent? path = some parent) :
    parent.length < path.length := by
  have shorter := (List.dropWhile_sublist (l := path.reverse) (· != '/')).length_le
  unfold parent? at h
  split at h
  · simp at h
  · next left =>
    rw [left] at shorter
    simp only [Option.some.injEq] at h
    rw [← h]
    exact Nat.lt_of_succ_le (by simpa using shorter)

end EoJava.Path
