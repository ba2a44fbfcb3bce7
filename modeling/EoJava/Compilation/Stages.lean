import EoJava.Compilation.Basic
import EoJava.Shape.Classification
import EoJava.Token.Scan

/-!
# The stages of a compilation

Each stage takes what the ones before it left, adds its own result and says whether it succeeded. A
stage that stops at a problem reports it. Stages can be repeated: tokens and diagnostics add up,
and declarations are replaced only by a reading that succeeds.
-/

namespace EoJava.Compilation

/-- Stores a lexeme as a token. -/
def addLexeme (c : Compilation) (lexeme : Located Lexeme) : Compilation :=
  let (token, strings) := c.strings.store lexeme
  { c with strings }.addToken token

/-- Reads the source into tokens. It succeeds if the compilation holds no error at all. -/
def tokenize (c : Compilation) : Bool × Compilation :=
  let reading := Scan.source c.source.toList
  let read := reading.lexemes.foldl addLexeme c
  let done :=
    match reading.outcome with
    | .ok () => read
    | .error problem => read.report problem
  (!done.hasErrors, done)

/-- The grammar takes the tokens. -/
def accepts (c : Compilation) : Except Breakdown Bool :=
  Grammar.accepts c.strings c.tokens

/-- Reads the tokens into declarations. -/
def parse (c : Compilation) : Except Breakdown (Bool × Compilation) := do
  match ← Grammar.parse c.strings c.tokens with
  | .ok declarations => pure (true, { c with declarations := some declarations })
  | .error refusal => do
    let c ← c.reportAtToken refusal.problem.code refusal.token refusal.problem.arguments
    pure (false, c)

/-- Gives every declaration its kind, or reports the first whose shape is wrong. -/
def classify (c : Compilation) : Bool × Compilation :=
  let (declarations, fault?) := Shape.classify (c.declarations.getD [])
  let done := { c with declarations := c.declarations.map fun _ => declarations }
  match fault? with
  | none => (true, done)
  | some fault => (false, done.report fault)

/-- Renders the declarations as units. No unit is left if there is a problem. -/
def emit (c : Compilation) : Except Breakdown (Option (List JavaUnit) × Compilation) := do
  let emitted ← Java.emit (c.declarations.getD [])
  let done := { c with declarations := c.declarations.map fun _ => emitted.node }
  match emitted.result with
  | .ok units => pure (some units, done)
  | .error problem => pure (none, done.report problem)

/-- The text of one expression. -/
def renderExpression (c : Compilation) (scope : Java.Scope) (expr : Expr) :
    Option String × Expr × Compilation :=
  let rendered := Java.expressionText scope expr
  match rendered.result with
  | .ok text => (some text, rendered.node, c)
  | .error problem => (none, rendered.node, c.report problem)

end EoJava.Compilation
