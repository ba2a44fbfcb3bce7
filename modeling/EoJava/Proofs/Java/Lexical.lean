import EoJava.Text.Numeral

/-!
# Reading Java

How Java reads the characters of a unit. First every Unicode escape is replaced, `translate`; then
the text is cut into lexemes, `lex`, and a string literal becomes its value. This is as much of
Java's lexical grammar as units are written in: there are no comments, no operators of more than one
character, and no letters other than those of ASCII outside of strings. What is not covered is
refused.
-/

namespace EoJava.Java

/-! ## Unicode escapes -/

/-- The value of a hexadecimal digit. -/
def hexValue? (c : Char) : Option Nat :=
  if c.isDigit then some (c.toNat - 48)
  else if 'a' ≤ c && c ≤ 'f' then some (c.toNat - 87)
  else if 'A' ≤ c && c ≤ 'F' then some (c.toNat - 55)
  else none

/-- The character whose code has four hexadecimal digits. Half of a surrogate pair is none. -/
def unicode? (a b c d : Char) : Option Char := do
  let a ← hexValue? a
  let b ← hexValue? b
  let c ← hexValue? c
  let d ← hexValue? d
  let code := ((a * 16 + b) * 16 + c) * 16 + d
  if code.isValidChar then some (Char.ofNat code) else none

/-- A text with its Unicode escapes replaced. A backslash after an odd number of others starts no
escape, and neither does the character of an escape. -/
def translate : List Char → Option (List Char)
  | '\\' :: '\\' :: rest => (translate rest).map ('\\' :: '\\' :: ·)
  | '\\' :: 'u' :: 'u' :: rest => translate ('\\' :: 'u' :: rest)
  | '\\' :: 'u' :: a :: b :: c :: d :: rest =>
    (unicode? a b c d).bind fun value => (translate rest).map (value :: ·)
  | '\\' :: 'u' :: _ => none
  | c :: rest => (translate rest).map (c :: ·)
  | [] => some []
termination_by text => text.length

/-! ## Lexemes -/

/-- A word, a truth value, a number as it is written, the value of a string, or a mark of
punctuation. -/
inductive Lexeme where
  | word (text : String)
  | truth (value : Bool)
  | number (text : String)
  | string (value : String)
  | symbol (c : Char)
deriving DecidableEq, Repr

/-- The value of a string. -/
def Lexeme.string? : Lexeme → Option String
  | string value => some value
  | _ => none

/-- The characters that a word starts with. -/
def isWordStart (c : Char) : Bool :=
  c.isAlpha || c == '_' || c == '$'

/-- The characters that a word goes on with. -/
def isWordPart (c : Char) : Bool :=
  c.isAlphanum || c == '_' || c == '$'

/-- The lexeme of a word. -/
def wordLexeme (word : String) : Lexeme :=
  if word = "true" then .truth true
  else if word = "false" then .truth false
  else .word word

/-- The characters that are read as one number. -/
def isNumberPart (c : Char) : Bool :=
  isWordPart c || c == '.'

/-- Digits, with a fraction or with the suffix of a `long`. -/
def isNumber (text : List Char) : Bool :=
  if text.getLast? = some 'L' then text.dropLast.all Char.isDigit
  else Text.Numeral.isNumeral text

/-- Punctuation. -/
def symbols : List Char :=
  ['\x7b', '\x7d', '(', ')', ',', ';', '.', '=', '-']

/-- What follows a mark of punctuation makes it part of something longer. -/
def isLonger (c : Char) (rest : List Char) : Bool :=
  match rest with
  | [] => false
  | next :: _ =>
    c == '=' && next == '=' ||
    c == '-' && (next == '-' || next == '=' || next == '>') ||
    c == '.' && (next == '.' || next.isDigit)

/-! ## Strings -/

/-- The character that an escape of one character stands for. -/
def simpleEscape? : Char → Option Char
  | 'b' => some '\x08'
  | 's' => some ' '
  | 't' => some '\t'
  | 'n' => some '\n'
  | 'f' => some '\x0c'
  | 'r' => some '\r'
  | '"' => some '"'
  | '\x27' => some '\x27'
  | '\\' => some '\\'
  | _ => none

/-- An octal digit. -/
def isOctal (c : Char) : Bool :=
  '0' ≤ c && c ≤ '7'

/-- The value of octal digits. -/
def octalValue (digits : List Char) : Nat :=
  digits.foldl (fun value digit => value * 8 + (digit.toNat - 48)) 0

/-- The character of an escape, and what follows it, given the text after its backslash. An octal
escape has up to three digits, and its value is below 256. -/
def escape? : List Char → Option (Char × List Char)
  | [] => none
  | c :: rest =>
    match simpleEscape? c with
    | some value => some (value, rest)
    | none =>
      if isOctal c then
        let others := (rest.takeWhile isOctal).take (if c ≤ '3' then 2 else 1)
        some (Char.ofNat (octalValue (c :: others)), rest.drop others.length)
      else none

/-- An escape takes at least one character after its backslash. -/
theorem length_of_escape? {text after : List Char} {value : Char}
    (h : escape? text = some (value, after)) : after.length < text.length := by
  cases text with
  | nil => cases h
  | cons c rest =>
      rw [escape?] at h
      split at h
      · cases h
        simp
      · split at h
        · cases h
          simp only [List.length_drop, List.length_cons]
          omega
        · cases h

/-- The value of the string whose opening quote stands just before a text, and what follows its
closing quote. No line ends within a string. -/
def stringBody? (text : List Char) : Option (List Char × List Char) :=
  match text with
  | [] => none
  | c :: rest =>
    if c = '"' then some ([], rest)
    else if c = '\n' || c = '\r' then none
    else if c = '\\' then
      match _escape : escape? rest with
      | none => none
      | some (value, after) => (stringBody? after).map fun (cs, after) => (value :: cs, after)
    else (stringBody? rest).map fun (cs, after) => (c :: cs, after)
termination_by text.length
decreasing_by
  · have := length_of_escape? _escape
    simp only [List.length_cons]
    omega
  · simp

/-- A string takes at least its closing quote. -/
theorem length_of_stringBody? {text value after : List Char}
    (h : stringBody? text = some (value, after)) : after.length < text.length := by
  fun_induction stringBody? text generalizing value after with
  | case1 | case3 | case4 => cases h
  | case2 =>
      cases h
      simp
  | case5 rest value found hescape _ _ ih =>
      obtain ⟨⟨cs, left⟩, hbody, heq⟩ := Option.map_eq_some_iff.1 h
      cases heq
      have hleft := ih hbody
      have hfound := length_of_escape? hescape
      simp only [List.length_cons]
      omega
  | case6 c rest _ _ _ ih =>
      obtain ⟨⟨cs, left⟩, hbody, heq⟩ := Option.map_eq_some_iff.1 h
      cases heq
      have hleft := ih hbody
      simp only [List.length_cons]
      omega

/-! ## Texts -/

/-- The lexeme that starts with `c`, and what follows it. Three quotes would start a text block. -/
def next? (c : Char) (rest : List Char) : Option (Lexeme × List Char) :=
  if isWordStart c then
    let word := c :: rest.takeWhile isWordPart
    some (wordLexeme (String.ofList word), rest.dropWhile isWordPart)
  else if c.isDigit then
    let number := c :: rest.takeWhile isNumberPart
    if isNumber number then some (.number (String.ofList number), rest.dropWhile isNumberPart)
    else none
  else if c = '"' then
    if rest.take 2 = ['"', '"'] then none
    else (stringBody? rest).map fun (value, after) => (.string (String.ofList value), after)
  else if symbols.contains c && !isLonger c rest then some (.symbol c, rest)
  else none

/-- A lexeme takes at least one character. -/
theorem length_of_next? {c : Char} {rest after : List Char} {lexeme : Lexeme}
    (h : next? c rest = some (lexeme, after)) : after.length ≤ rest.length := by
  simp only [next?] at h
  split at h
  · cases h
    exact (List.dropWhile_sublist _).length_le
  · split at h
    · split at h
      · cases h
        exact (List.dropWhile_sublist _).length_le
      · cases h
    · split at h
      · split at h
        · cases h
        · obtain ⟨⟨value, left⟩, hbody, heq⟩ := Option.map_eq_some_iff.1 h
          cases heq
          exact Nat.le_of_lt (length_of_stringBody? hbody)
      · split at h
        · cases h
          exact Nat.le_refl _
        · cases h

/-- White space. -/
def isSpace (c : Char) : Bool :=
  [' ', '\t', '\x0c', '\n', '\r'].contains c

/-- The lexemes of a text without Unicode escapes. -/
def lex (text : List Char) : Option (List Lexeme) :=
  match text with
  | [] => some []
  | c :: rest =>
    if isSpace c then lex rest
    else
      match _met : next? c rest with
      | none => none
      | some (lexeme, after) => (lex after).map (lexeme :: ·)
termination_by text.length
decreasing_by
  · simp
  · have := length_of_next? _met
    simp only [List.length_cons]
    omega

/-- The lexemes of a text. -/
def lexemes? (text : List Char) : Option (List Lexeme) :=
  (translate text).bind lex

/-- The values of the strings among lexemes. -/
def stringsOf (lexemes : List Lexeme) : List String :=
  lexemes.filterMap Lexeme.string?

/-- A quote, a backslash before a letter, a line feed, and a control character that is no part of
the literal until its escape is replaced. -/
example : lexemes? "f(\"a\\\"\\\\u0041\\n\\u0007\", this.x)".toList =
    some [.word "f", .symbol '(', .string "a\"\\u0041\n\x07", .symbol ',', .word "this",
      .symbol '.', .word "x", .symbol ')'] := by
  decide +kernel

end EoJava.Java
