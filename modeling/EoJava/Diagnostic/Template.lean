import EoJava.Diagnostic.Scalar

/-!
# Message templates

A template is text with holes. Written down, a hole is a word between braces; a word is one or more
ASCII letters, digits and underscores, and a brace that opens no such hole is text. `parse` finds
the leftmost holes, `source` writes a template down again (`source_parse`), and `fill` puts
arguments into the holes all at once, so an argument is never read for holes itself.

Arguments are a plain object. Under a name of which it has no value of its own, such an object may
still have something that it inherits, and that is then put into the hole.
-/

namespace EoJava

namespace Arguments

/-- The text of a function that is built in. -/
def builtIn (name : String) : String :=
  "function " ++ name ++ "() \x7b [native code] \x7d"

/-- What every plain object inherits, by name, each with its text. -/
def inherited : List (String × String) :=
  [("__proto__", "[object Object]"), ("constructor", builtIn "Object")] ++
    ["__defineGetter__", "__defineSetter__", "__lookupGetter__", "__lookupSetter__",
      "hasOwnProperty", "isPrototypeOf", "propertyIsEnumerable", "toLocaleString", "toString",
      "valueOf"].map fun name => (name, builtIn name)

/-- The text under a name: that of the argument, or else that of what is inherited. -/
def text? (arguments : Arguments) (name : String) : Option String :=
  ((arguments.lookup name).map Scalar.display).or (inherited.lookup name)

end Arguments

/-- A piece of a template: text that stands for itself, or a hole for a named argument. -/
inductive Piece where
  | text (value : String)
  | hole (name : String)
deriving DecidableEq, Repr

/-- A string in a template stands for itself. -/
instance : Coe String Piece := ⟨Piece.text⟩

/-- A piece as written. -/
def Piece.source : Piece → String
  | .text value => value
  | .hole name => "\x7b" ++ name ++ "\x7d"

/-- A message template. -/
abbrev Template := List Piece

namespace Template

/-- The characters of the name of a hole. -/
def isWordChar (c : Char) : Bool :=
  c.isAlphanum || c == '_'

/-- The name of the hole whose opening brace stands just before a text, and what follows the
hole. -/
def holeName? (text : List Char) : Option (List Char × List Char) :=
  match text.takeWhile isWordChar, text.dropWhile isWordChar with
  | c :: name, '\x7d' :: rest => some (c :: name, rest)
  | _, _ => none

/-- A hole is its name and the closing brace. -/
theorem eq_of_holeName? {text name rest : List Char} (h : holeName? text = some (name, rest)) :
    text = name ++ '\x7d' :: rest := by
  have whole := List.takeWhile_append_dropWhile (p := isWordChar) (l := text)
  unfold holeName? at h
  split at h
  · next taken left =>
    simp only [Option.some.injEq, Prod.mk.injEq] at h
    rw [taken, left] at whole
    rw [← whole, ← h.1, ← h.2]
  · simp at h

/-- The pieces of a written template, each character of text a piece of its own. -/
def parse : List Char → Template
  | [] => []
  | c :: cs =>
    if c = '\x7b' then
      match _hole : holeName? cs with
      | some (name, rest) => .hole (String.ofList name) :: parse rest
      | none => .text (String.singleton c) :: parse cs
    else .text (String.singleton c) :: parse cs
termination_by text => text.length
decreasing_by
  all_goals simp_wf
  have := congrArg List.length (eq_of_holeName? _hole)
  simp at this
  omega

/-- A template as written. -/
def source (template : Template) : String :=
  String.join (template.map Piece.source)

/-- The text of a piece: a hole shows what is found under its name, or itself if that is nothing. -/
def fillPiece (arguments : Arguments) : Piece → String
  | .text value => value
  | .hole name => (arguments.text? name).getD (Piece.hole name).source

/-- A template with its holes filled. -/
def fill (arguments : Arguments) (template : Template) : String :=
  String.join (template.map (fillPiece arguments))

/-- A written template with its holes filled. -/
def fillText (arguments : Arguments) (text : String) : String :=
  fill arguments (parse text.toList)

end Template

end EoJava
