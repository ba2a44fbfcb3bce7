import EoJava.Grammar.Expectation
import EoJava.Text.Cursor

/-!
# Matchers

A matcher reads a value off the front of a text, and in any case tells the furthest failures it
met. Choice is ordered and repetition takes all it can. `rule` skips white space before what it
applies; sequences, choices and repetitions leave that to their parts.
-/

namespace EoJava.Grammar

open Text (Cursor)

/-- What a matcher did: the value and the cursor after it if it succeeded, and the frontier. -/
structure Attempt (α : Type) where
  result : Option (α × Cursor)
  frontier : Frontier

/-- A matcher of values at a cursor. -/
def Matcher (α : Type) : Type :=
  Cursor → Attempt α

namespace Matcher

variable {α β : Type}

/-- White space between tokens: the space and every control below it. -/
def isSpace (c : Char) : Bool :=
  c.toNat ≤ 0x20

/-- The cursor after the white space at a cursor. -/
def skip (cursor : Cursor) : Cursor :=
  cursor.after (cursor.rest.takeWhile isSpace) (cursor.rest.dropWhile isSpace)

/-- One matcher after another. -/
def bind (first : Matcher α) (next : α → Matcher β) : Matcher β := fun cursor =>
  match first cursor with
  | ⟨none, frontier⟩ => ⟨none, frontier⟩
  | ⟨some (value, after), frontier⟩ =>
    let second := next value after
    ⟨second.result, frontier.followedBy second.frontier⟩

/-- Matchers in sequence. -/
instance : Monad Matcher where
  pure value := fun cursor => ⟨some (value, cursor), .clear⟩
  bind := bind

/-- The matcher that never succeeds and expects nothing. -/
def never : Matcher α := fun _ =>
  ⟨none, .clear⟩

/-- The first of two matchers that succeeds. -/
def orElse (first second : Matcher α) : Matcher α := fun cursor =>
  match first cursor with
  | ⟨some found, frontier⟩ => ⟨some found, frontier⟩
  | ⟨none, frontier⟩ =>
    let attempt := second cursor
    ⟨attempt.result, frontier.followedBy attempt.frontier⟩

/-- Ordered choice. -/
instance : OrElse (Matcher α) where
  orElse first second := orElse first (second ())

/-- A matcher whose expectations at the very place it reached are idle. -/
def settled (matcher : Matcher α) : Matcher α := fun cursor =>
  match matcher cursor with
  | ⟨none, frontier⟩ => ⟨none, frontier⟩
  | ⟨some (value, after), frontier⟩ => ⟨some (value, after), frontier.settle after.offset⟩

/-- A rule of the grammar: white space, then what the rule says. -/
def rule (matcher : Matcher α) : Matcher α := fun cursor =>
  matcher.settled (skip cursor)

/-- The offset of the cursor. -/
def offset : Matcher Nat := fun cursor =>
  ⟨some (cursor.offset, cursor), .clear⟩

/-- As many values in a row as a matcher finds. It stops before a value that takes nothing. -/
def repeated (matcher : Matcher α) (cursor : Cursor) : List α × Cursor × Frontier :=
  match matcher cursor with
  | ⟨none, frontier⟩ => ([], cursor, frontier)
  | ⟨some (value, after), frontier⟩ =>
    if after.rest.length < cursor.rest.length then
      let (values, last, later) := repeated matcher after
      (value :: values, last, frontier.followedBy later)
    else ([], cursor, frontier)
termination_by cursor.rest.length

/-- Zero or more values in a row. -/
def many (matcher : Matcher α) : Matcher (List α) :=
  settled fun cursor =>
    let (values, after, frontier) := repeated matcher cursor
    ⟨some (values, after), frontier⟩

/-- One or more values in a row. -/
def many1 (matcher : Matcher α) : Matcher (List α) :=
  settled fun cursor =>
    match repeated matcher cursor with
    | ([], _, frontier) => ⟨none, frontier⟩
    | (values, after, frontier) => ⟨some (values, after), frontier⟩

/-- A value or nothing. -/
def optional (matcher : Matcher α) : Matcher (Option α) :=
  settled fun cursor =>
    match matcher cursor with
    | ⟨none, frontier⟩ => ⟨some (none, cursor), frontier⟩
    | ⟨some (value, after), frontier⟩ => ⟨some (some value, after), frontier⟩

/-- A fixed spelling. -/
def spelling (text : String) : Matcher Unit := fun cursor =>
  let cursor := skip cursor
  if text.toList.isPrefixOf cursor.rest then
    ⟨some ((), cursor.after text.toList (cursor.rest.drop text.length)), .clear⟩
  else ⟨none, .single cursor.offset (.spelling text)⟩

/-- Text that a function takes off the front, known by a description, with the offset it starts
at. -/
def described (description : String) (take? : List Char → Option (List Char × List Char)) :
    Matcher (Nat × List Char) := fun cursor =>
  let cursor := skip cursor
  match take? cursor.rest with
  | some (taken, rest) => ⟨some ((cursor.offset, taken), cursor.after taken rest), .clear⟩
  | none => ⟨none, .single cursor.offset (.thing description)⟩

/-- The end of the text. -/
def endOfText : Matcher Unit := fun cursor =>
  let cursor := skip cursor
  match cursor.rest with
  | [] => ⟨some ((), cursor), .clear⟩
  | _ => ⟨none, .single cursor.offset (.thing "end of input")⟩

/-- One or more items with a separator between them. -/
def separated1 (item : Matcher α) (separator : String) : Matcher (List α) :=
  rule do
    let first ← item
    let others ← many (settled do
      spelling separator
      item)
    pure (first :: others)

/-- Items with a separator between them, or none at all. -/
def separated (item : Matcher α) (separator : String) : Matcher (List α) :=
  rule (separated1 item separator <|> rule (pure []))

end Matcher

end EoJava.Grammar
