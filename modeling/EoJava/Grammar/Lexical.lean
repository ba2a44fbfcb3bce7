import EoJava.Grammar.Matcher
import EoJava.Text.Letter
import EoJava.Text.Numeral
import EoJava.Token.Kind

/-!
# Words, literals and layout marks in printed text

How the grammar takes names, keywords, literals and layout off the front of printed tokens. A word
is taken whole, so a keyword is one only if the word ends with it.
-/

namespace EoJava.Grammar

open Text (Cursor)

/-- The printed forms of layout tokens. -/
def indentText : String := "⇥"

/-- The printed form of a token that closes a block. -/
def dedentText : String := "⇤"

/-- The printed form of a token that ends a line. -/
def newlineText : String := "⏎"

/-- The characters that a word starts with. -/
def isWordStart (c : Char) : Bool :=
  Text.isLetter c || c == '_'

/-- The characters that a word goes on with. -/
def isWordPart (c : Char) : Bool :=
  Text.isLetter c || c.isDigit || c == '_'

/-- The word at the front of a text. -/
def takeWord? : List Char → Option (List Char × List Char)
  | [] => none
  | c :: cs =>
    if isWordStart c then some (c :: cs.takeWhile isWordPart, cs.dropWhile isWordPart) else none

/-- The name at the front of a text: a word that is no keyword. -/
def takeName? (text : List Char) : Option (List Char × List Char) :=
  match takeWord? text with
  | some (word, rest) =>
    if (Mark.ofWord? (String.ofList word)).isSome then none else some (word, rest)
  | none => none

/-- The rest of a string after its opening quote, up to and with the closing one. A backslash
takes the next character with it, whatever it is, and no line feed stands alone. -/
def takeStringTail? : List Char → Option (List Char × List Char)
  | [] => none
  | '"' :: rest => some (['"'], rest)
  | ['\\'] => none
  | '\\' :: c :: rest =>
    (takeStringTail? rest).map fun (taken, after) => ('\\' :: c :: taken, after)
  | '\n' :: _ => none
  | c :: rest => (takeStringTail? rest).map fun (taken, after) => (c :: taken, after)

/-- The string at the front of a text, with its quotes. -/
def takeString? : List Char → Option (List Char × List Char)
  | '"' :: rest => (takeStringTail? rest).map fun (taken, after) => ('"' :: taken, after)
  | _ => none

/-- The truth value at the front of a text. -/
def takeBoolean? (text : List Char) : Option (List Char × List Char) :=
  match takeWord? text with
  | some (word, rest) =>
    match Mark.ofWord? (String.ofList word) with
    | some .trueWord | some .falseWord => some (word, rest)
    | _ => none
  | none => none

/-- A given spelling at the front of a text. -/
def takeText? (spelled : String) (text : List Char) : Option (List Char × List Char) :=
  if spelled.toList.isPrefixOf text then some (spelled.toList, text.drop spelled.length) else none

namespace Matcher

/-- A name. -/
def name : Matcher (Nat × List Char) :=
  described "an identifier" takeName?

/-- A string literal. -/
def string : Matcher (Nat × List Char) :=
  described "a string" takeString?

/-- A number. -/
def number : Matcher (Nat × List Char) :=
  described "a number" Text.Numeral.take?

/-- A truth value. -/
def boolean : Matcher (Nat × List Char) :=
  described "a boolean" takeBoolean?

/-- The end of a line. -/
def newline : Matcher (Nat × List Char) :=
  described "end of line" (takeText? newlineText)

/-- The start of a block. -/
def indent : Matcher (Nat × List Char) :=
  described "an indented block" (takeText? indentText)

/-- The end of a block. -/
def dedent : Matcher (Nat × List Char) :=
  described "end of block" (takeText? dedentText)

/-- A keyword. A longer word that starts with it fails where the keyword would end. -/
def keyword (mark : Mark) : Matcher Unit := fun cursor =>
  let attempt := spelling mark.text cursor
  match attempt.result with
  | none => attempt
  | some ((), after) =>
    match after.rest with
    | c :: _ =>
      if isWordPart c then ⟨none, .single after.offset (.thing "not an identPart")⟩ else attempt
    | [] => attempt

end Matcher

end EoJava.Grammar
