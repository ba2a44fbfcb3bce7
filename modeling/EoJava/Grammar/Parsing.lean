import EoJava.Grammar.Rules

/-!
# Reading declarations from tokens

Tokens are refused if too many parentheses are open at once. Otherwise they are printed and read by
the grammar. If it does not take the whole text, the problem is what was expected at the furthest
place it reached, and it belongs to the first token from there on.
-/

namespace EoJava.Grammar

/-- The number of parentheses that may be open at once. -/
def maxDepth : Nat := 256

/-- The index of the first token at which more than `maxDepth` parentheses are open, among tokens
from `index` on with `depth` parentheses open before them. -/
def excessiveDepth? (index depth : Nat) : List Token → Option Nat
  | [] => none
  | token :: tokens =>
    match token.kind with
    | .mark m =>
      let depth := m.depthAfter depth
      if maxDepth < depth then some index else excessiveDepth? (index + 1) depth tokens
    | _ => excessiveDepth? (index + 1) depth tokens

/-- A problem and the token it was found at. -/
structure Refusal where
  token : Nat
  problem : Problem
deriving DecidableEq, Repr

/-- The token with an id. -/
def tokenOf (tokens : Array Token) (id : Int) : Except Breakdown Token :=
  match (if 0 ≤ id then tokens[id.toNat]? else none) with
  | some token => .ok token
  | none => .error (.invalidToken id)

/-- The way back from printed tokens. -/
def anchorsOf (table : StringTable) (tokens : Array Token) (printed : Printed) : Anchors where
  token offset := tokenOf tokens (printed.tokenAt offset)
  text token := token.payloadText table

/-- Applies the grammar to printed tokens. -/
def Printed.attempt (printed : Printed) (anchors : Anchors) :
    Attempt (Except Breakdown (List Decl)) :=
  program anchors (expression anchors (printed.text.length + 1)) (.start printed.text)

/-- The problem of tokens that the grammar does not take. -/
def refusal (table : StringTable) (tokens : Array Token) (printed : Printed)
    (frontier : Frontier) : Except Breakdown Refusal := do
  let offset := offsetOf printed.text (lineColumn frontier.offset printed.text)
  let id := printed.tokenAt offset
  let token ← tokenOf tokens id
  let found ← token.describe table
  pure ⟨id, .syntaxError (frontier.describe ++ ", found " ++ found)⟩

/-- The declarations that tokens spell, or the problem with them. -/
def parse (table : StringTable) (tokens : Array Token) :
    Except Breakdown (Except Refusal (List Decl)) :=
  match excessiveDepth? 0 0 tokens.toList with
  | some id => pure (.error ⟨id, .nestingTooDeep maxDepth⟩)
  | none => do
    let printed ← print table tokens.toList
    let attempt := printed.attempt (anchorsOf table tokens printed)
    match attempt.result with
    | some (declarations, _) => do
      let declarations ← declarations
      pure (.ok declarations)
    | none => do
      let refusal ← refusal table tokens printed attempt.frontier
      pure (.error refusal)

/-- The grammar takes the tokens. -/
def accepts (table : StringTable) (tokens : Array Token) : Except Breakdown Bool :=
  match excessiveDepth? 0 0 tokens.toList with
  | some _ => pure false
  | none => do
    let printed ← print table tokens.toList
    pure (printed.attempt (anchorsOf table tokens printed)).result.isSome

end EoJava.Grammar
