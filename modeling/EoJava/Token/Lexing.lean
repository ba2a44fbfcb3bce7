import EoJava.Text.Cursor
import EoJava.Text.Numeral
import EoJava.Token.Reading

/-!
# Lexemes of a line

The lexeme at a cursor is the longest name, keyword, numeral, string or mark that starts there.
`next?` finds it, and `length_of_next?` says that it takes at least one character.
-/

namespace EoJava.Lexing

open Text (Cursor)

/-- The characters that a name starts with. -/
def isNameStart (c : Char) : Bool :=
  c.isAlpha || c == '_'

/-- The characters that a name goes on with. -/
def isNamePart (c : Char) : Bool :=
  c.isAlphanum || c == '_'

/-- The character that an escape in a string stands for. -/
def escaped? : Char → Option Char
  | '"' => some '"'
  | '\\' => some '\\'
  | 'n' => some '\n'
  | 'r' => some '\r'
  | 't' => some '\t'
  | _ => none

/-- Why a string cannot be read: it does not close, or the escape at some offset is unknown. -/
inductive StringFault where
  | unterminated
  | unknownEscape (offset : Nat) (escaped : Char)
deriving DecidableEq, Repr

/-- The value of the string whose opening quote stands just before a text, and the cursor after
its closing quote. -/
def readString (offset : Nat) : List Char → Except StringFault (List Char × Cursor)
  | [] => .error .unterminated
  | '"' :: rest => .ok ([], ⟨rest, offset + 1⟩)
  | ['\\'] => .error .unterminated
  | '\\' :: c :: rest =>
    match escaped? c with
    | none => .error (.unknownEscape offset c)
    | some value => (readString (offset + 2) rest).map fun (cs, after) => (value :: cs, after)
  | c :: rest =>
    (readString (offset + Text.units c) rest).map fun (cs, after) => (c :: cs, after)

/-- The mark of punctuation at the front of a text, and what follows it. -/
def takeMark? : List Char → Option (Mark × List Char)
  | ':' :: '=' :: rest => some (.assign, rest)
  | ':' :: rest => some (.colon, rest)
  | ',' :: rest => some (.comma, rest)
  | '(' :: rest => some (.leftParen, rest)
  | ')' :: rest => some (.rightParen, rest)
  | '@' :: rest => some (.atSign, rest)
  | '=' :: rest => some (.equals, rest)
  | _ => none

/-- The lexeme of a word: a keyword if it spells one, else a name. -/
def wordLexeme (word : String) : Lexeme :=
  match Mark.ofWord? word with
  | some mark => .mark mark
  | none => .name word

/-- The lexeme that starts with `c`, and the cursor after it, or the problem and the offset it is
found at. -/
def next? (c : Char) (rest : List Char) (offset : Nat) :
    Except (Nat × Problem) (Lexeme × Cursor) :=
  let here : Cursor := ⟨c :: rest, offset⟩
  if isNameStart c then
    let word := c :: rest.takeWhile isNamePart
    .ok (wordLexeme (String.ofList word), here.after word (rest.dropWhile isNamePart))
  else
    match Text.Numeral.take? (c :: rest) with
    | some (numeral, after) =>
      .ok (.number (String.ofList numeral), here.after numeral after)
    | none =>
      if c = '"' then
        match readString (offset + 1) rest with
        | .ok (value, after) => .ok (.string (String.ofList value), after)
        | .error .unterminated => .error (offset, .unterminatedString)
        | .error (.unknownEscape place escaped) => .error (place, .unknownEscape escaped)
      else
        match takeMark? (c :: rest) with
        | some (mark, after) => .ok (.mark mark, here.after mark.text.toList after)
        | none => .error (offset, .unknownCharacter c)

/-- A string takes at least its closing quote. -/
theorem length_of_readString {offset : Nat} {text value : List Char} {after : Cursor}
    (h : readString offset text = .ok (value, after)) : after.rest.length < text.length := by
  fun_induction readString offset text generalizing value after with
  | case1 | case3 | case4 => simp at h
  | case2 =>
    simp only [Except.ok.injEq, Prod.mk.injEq] at h
    simp [← h.2]
  | case5 offset c rest escaped _ ih =>
    cases read : readString (offset + 2) rest with
    | error => simp [read, Except.map] at h
    | ok found =>
      simp only [read, Except.map, Except.ok.injEq, Prod.mk.injEq] at h
      rw [← h.2]
      exact Nat.lt_of_lt_of_le (ih read) (Nat.le_add_right _ 2)
  | case6 offset c rest _ _ _ ih =>
    cases read : readString (offset + Text.units c) rest with
    | error => simp [read, Except.map] at h
    | ok found =>
      simp only [read, Except.map, Except.ok.injEq, Prod.mk.injEq] at h
      rw [← h.2]
      exact Nat.lt_succ_of_lt (ih read)

/-- A mark takes at least one character. -/
theorem length_of_takeMark? {text rest : List Char} {mark : Mark}
    (h : takeMark? text = some (mark, rest)) : rest.length < text.length := by
  unfold takeMark? at h
  split at h
  case h_8 => contradiction
  all_goals
    simp only [Option.some.injEq, Prod.mk.injEq] at h
    simp only [← h.2, List.length_cons]
    omega

/-- A lexeme takes at least one character. -/
theorem length_of_next? {c : Char} {rest : List Char} {offset : Nat} {lexeme : Lexeme}
    {after : Cursor} (h : next? c rest offset = .ok (lexeme, after)) :
    after.rest.length ≤ rest.length := by
  simp only [next?] at h
  split at h
  · simp only [Except.ok.injEq, Prod.mk.injEq] at h
    simpa [← h.2, Cursor.after] using (List.dropWhile_sublist isNamePart).length_le
  · split at h
    · next numeral left taken =>
      simp only [Except.ok.injEq, Prod.mk.injEq] at h
      have whole := Text.Numeral.append_of_take? taken
      have := congrArg List.length whole.1
      have := List.length_pos_iff.2 whole.2
      simp [← h.2, Cursor.after] at *
      omega
    · split at h
      · split at h
        · next read =>
          simp only [Except.ok.injEq, Prod.mk.injEq] at h
          rw [← h.2]
          exact Nat.le_of_lt (length_of_readString read)
        · simp at h
        · simp at h
      · split at h
        · next taken =>
          simp only [Except.ok.injEq, Prod.mk.injEq] at h
          simpa [← h.2, Cursor.after] using Nat.le_of_lt_succ (length_of_takeMark? taken)
        · simp at h

end EoJava.Lexing
