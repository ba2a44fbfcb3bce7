import EoJava.Text.Position
import EoJava.Token.Kind

/-!
# Lexemes and tokens

A lexeme is what the reader of a source meets: layout, a mark, or a name, string or number with its
text. A token is a lexeme made small for storing: its kind, its place, and one number that stands
for the depth or the text.
-/

namespace EoJava

/-- A unit of the source. The depth of a layout lexeme is the number of blocks open after it. -/
inductive Lexeme where
  | indent (depth : Nat)
  | dedent (depth : Nat)
  | newline
  | mark (m : Mark)
  | name (text : String)
  | string (value : String)
  | number (text : String)
  | endOfInput
deriving DecidableEq, Repr

namespace Lexeme

/-- The kind of a lexeme. -/
def kind : Lexeme → Kind
  | .indent _ => .indent
  | .dedent _ => .dedent
  | .newline => .newline
  | .mark m => .mark m
  | .name _ => .name
  | .string _ => .string
  | .number _ => .number
  | .endOfInput => .endOfInput

/-- The number of parentheses open after a lexeme. -/
def depthAfter (depth : Nat) : Lexeme → Nat
  | .mark m => m.depthAfter depth
  | _ => depth

end Lexeme

/-- A stored lexeme. The payload is the depth of a layout token, the id of the text of a name,
string or number, and zero for any other token of a source. -/
structure Token where
  kind : Kind
  position : Position
  payload : Int
deriving DecidableEq, Repr

end EoJava
