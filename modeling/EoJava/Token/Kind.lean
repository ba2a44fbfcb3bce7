/-!
# Kinds of tokens

Punctuation and keywords are marks: each has one spelling, and a mark says all there is to say
about its token. Names, strings and numbers carry a text, and layout tokens carry a depth. Every
kind has a number, and any number is that of exactly one kind (`code_ofCode`).
-/

namespace EoJava

/-- Punctuation and keywords. -/
inductive Mark where
  | colon
  | comma
  | leftParen
  | rightParen
  | atSign
  | assign
  | equals
  | objectWord
  | asWord
  | trueWord
  | falseWord
deriving DecidableEq, Repr

namespace Mark

/-- The spelling of a mark. -/
def text : Mark → String
  | .colon => ":"
  | .comma => ","
  | .leftParen => "("
  | .rightParen => ")"
  | .atSign => "@"
  | .assign => ":="
  | .equals => "="
  | .objectWord => "object"
  | .asWord => "as"
  | .trueWord => "true"
  | .falseWord => "false"

/-- The keywords. -/
def keywords : List Mark :=
  [.objectWord, .asWord, .trueWord, .falseWord]

/-- The keyword that a word spells. -/
def ofWord? (word : String) : Option Mark :=
  keywords.find? fun mark => mark.text == word

/-- The number of parentheses open after a mark. A closing one with none open does not count. -/
def depthAfter (depth : Nat) : Mark → Nat
  | .leftParen => depth + 1
  | .rightParen => depth - 1
  | _ => depth

end Mark

/-- The kinds of tokens. -/
inductive Kind where
  | indent
  | dedent
  | newline
  | mark (m : Mark)
  | name
  | string
  | number
  | endOfInput
  /-- A number that belongs to no kind above. -/
  | unknown (code : Int)
deriving DecidableEq, Repr

namespace Kind

/-- The kinds with a number of their own, under their names. -/
def named : List (String × Kind) :=
  [("Indent", .indent), ("Dedent", .dedent), ("Newline", .newline), ("Colon", .mark .colon),
    ("Comma", .mark .comma), ("LeftParen", .mark .leftParen), ("RightParen", .mark .rightParen),
    ("At", .mark .atSign), ("Assign", .mark .assign), ("Equals", .mark .equals),
    ("Object", .mark .objectWord), ("As", .mark .asWord), ("True", .mark .trueWord),
    ("False", .mark .falseWord), ("Identifier", .name), ("StringLiteral", .string),
    ("NumberLiteral", .number), ("Eof", .endOfInput)]

/-- The number of a kind. -/
def code : Kind → Int
  | .indent => 0
  | .dedent => 1
  | .newline => 2
  | .mark .colon => 3
  | .mark .comma => 4
  | .mark .leftParen => 5
  | .mark .rightParen => 6
  | .mark .atSign => 7
  | .mark .assign => 8
  | .mark .equals => 9
  | .mark .objectWord => 10
  | .mark .asWord => 11
  | .mark .trueWord => 12
  | .mark .falseWord => 13
  | .name => 100
  | .string => 101
  | .number => 102
  | .endOfInput => 255
  | .unknown code => code

/-- The kind of a number. -/
def ofCode (n : Int) : Kind :=
  match named.find? fun entry => entry.2.code == n with
  | some (_, kind) => kind
  | none => .unknown n

/-- The kind of a number has that number. -/
theorem code_ofCode (n : Int) : (ofCode n).code = n := by
  unfold ofCode
  split
  · next found => simpa using List.find?_some found
  · rfl

end Kind

end EoJava
