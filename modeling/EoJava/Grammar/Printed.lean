import EoJava.Grammar.Lexical
import EoJava.Token.StringTable

/-!
# Printed tokens

The grammar reads tokens from a text in which they are printed one after another, each on the line
it comes from and with a space after it. Layout is printed as arrows, strings in quotes, everything
else as it is spelled. The offsets at which the tokens start lead back from the text to the tokens.
-/

namespace EoJava

namespace Token

/-- The text of the payload of a token that carries a text. -/
def payloadText (table : StringTable) (token : Token) : Except Breakdown String :=
  table.get token.payload

/-- A token as the grammar reads it. -/
def print (table : StringTable) (token : Token) : Except Breakdown (List Char) :=
  match token.kind with
  | .indent => .ok Grammar.indentText.toList
  | .dedent => .ok Grammar.dedentText.toList
  | .newline => .ok Grammar.newlineText.toList
  | .mark m => .ok m.text.toList
  | .name | .number => (token.payloadText table).map String.toList
  | .string => (token.payloadText table).map fun text => Text.Quoted.quote text.toList
  | .endOfInput | .unknown _ => .ok []

/-- A token as messages name it. -/
def describe (table : StringTable) (token : Token) : Except Breakdown String :=
  match token.kind with
  | .indent => .ok "an indented block"
  | .dedent => .ok "end of block"
  | .newline => .ok "end of line"
  | .endOfInput => .ok "end of input"
  | .string => .ok "a string"
  | .name | .number => (token.payloadText table).map fun text => "'" ++ text ++ "'"
  | .mark m => .ok ("'" ++ m.text ++ "'")
  | .unknown _ => .ok "''"

end Token

namespace Grammar

/-- Printed tokens: their text, and the offset at which each starts. -/
structure Printed where
  text : List Char
  starts : Array Nat

/-- Prints tokens after `offset` units of text, the last of which stand on line `line`. -/
def printFrom (table : StringTable) (line : Int) (offset : Nat) :
    List Token → Except Breakdown (List Char × List Nat)
  | [] => .ok ([], [])
  | token :: tokens => do
    let breaks := List.replicate (token.position.line - line).toNat '\n'
    let printed ← token.print table
    let start := offset + breaks.length
    let (text, starts) ←
      printFrom table (max line token.position.line) (start + Text.width printed + 1) tokens
    pure (breaks ++ printed ++ ' ' :: text, start :: starts)

/-- Prints the tokens of a source. -/
def print (table : StringTable) (tokens : List Token) : Except Breakdown Printed := do
  let (text, starts) ← printFrom table 1 0 tokens
  pure ⟨text, starts.toArray⟩

/-- The first index from `low` on and before `high` at which ascending numbers reach `target`, or
`high` if none does. -/
def lowerBound (starts : Array Nat) (target low high : Nat) : Nat :=
  if low < high then
    let middle := (low + high) / 2
    if starts.getD middle 0 < target then lowerBound starts target (middle + 1) high
    else lowerBound starts target low middle
  else low
termination_by high - low

/-- The first token that starts at or after an offset, or the last token if there is none. -/
def Printed.tokenAt (printed : Printed) (offset : Nat) : Nat :=
  lowerBound printed.starts offset 0 (printed.starts.size - 1)

/-- The line and column of an offset in a text, both from one. A carriage return takes no
column. -/
def lineColumn (offset : Nat) : List Char → Nat × Nat :=
  go offset 1 1
where
  /-- The place reached from a given line and column. -/
  go (offset line column : Nat) : List Char → Nat × Nat
    | [] => (line, column)
    | c :: cs =>
      if offset = 0 then (line, column)
      else if c = '\n' then go (offset - Text.units c) (line + 1) 1 cs
      else if c = '\r' then go (offset - Text.units c) line column cs
      else go (offset - Text.units c) line (column + Text.units c) cs

/-- The offset at which a line of a text starts. A line past the last one starts where the last
one does. -/
def lineStart (line : Nat) : List Char → Nat :=
  go line 0 0
where
  /-- The start of a line that is `line - 1` lines further on, given the start of this one and the
  offset reached. -/
  go (line start offset : Nat) : List Char → Nat
    | [] => start
    | c :: cs =>
      if line ≤ 1 then start
      else
        let after := offset + Text.units c
        if c = '\n' then go (line - 1) after after cs else go line start after cs

/-- The offset of a line and column of a text. -/
def offsetOf (text : List Char) (place : Nat × Nat) : Nat :=
  lineStart place.1 text + place.2 - 1

end Grammar

end EoJava
