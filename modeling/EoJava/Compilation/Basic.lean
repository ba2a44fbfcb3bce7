import EoJava.Diagnostic.Report
import EoJava.Grammar.Parsing
import EoJava.Java.Emission

/-!
# Compilations

A compilation holds a source and what the stages have made of it: texts and tokens, declarations,
and the diagnostics reported so far. Stages add to it and take nothing away.
-/

namespace EoJava

/-- A source and what has been made of it. -/
structure Compilation where
  source : String
  filename : String := "<input>"
  strings : StringTable := .empty
  tokens : Array Token := #[]
  declarations : Option (List Decl) := none
  diagnostics : List Diagnostic := []

namespace Compilation

/-- Adds a diagnostic. -/
def add (c : Compilation) (diagnostic : Diagnostic) : Compilation :=
  { c with diagnostics := c.diagnostics ++ [diagnostic] }

/-- Reports a code at a place. -/
def reportAt (c : Compilation) (code : Code) (position : Position)
    (arguments : Option Arguments) : Compilation :=
  c.add (.make code position arguments none)

/-- Reports a problem at the place it was found. -/
def report (c : Compilation) (found : Located Problem) : Compilation :=
  c.add (.ofProblem found)

/-- The token with an id. -/
def token (c : Compilation) (id : Int) : Except Breakdown Token :=
  Grammar.tokenOf c.tokens id

/-- An id belongs to a token. -/
def isToken (c : Compilation) (id : Int) : Bool :=
  0 ≤ id && id < c.tokens.size

/-- Reports a code at a token. -/
def reportAtToken (c : Compilation) (code : Code) (id : Int) (arguments : Option Arguments) :
    Except Breakdown Compilation := do
  let token ← c.token id
  pure (c.add (.make code token.position arguments (some id.toNat)))

/-- Stores a token. Its id is the number of tokens before it. -/
def addToken (c : Compilation) (token : Token) : Compilation :=
  { c with tokens := c.tokens.push token }

/-- Stores a text. -/
def intern (c : Compilation) (text : String) : Nat × Compilation :=
  let (id, strings) := c.strings.intern text
  (id, { c with strings })

/-- The diagnostics that are errors. -/
def errors (c : Compilation) : List Diagnostic :=
  c.diagnostics.filter fun d => d.code.severity == .error

/-- The number of errors. -/
def errorCount (c : Compilation) : Nat :=
  c.errors.length

/-- There is an error. -/
def hasErrors (c : Compilation) : Bool :=
  !c.errors.isEmpty

/-- The report of a diagnostic. -/
def format (c : Compilation) (diagnostic : Diagnostic) : String :=
  diagnostic.report c.source c.filename

/-- The reports of all diagnostics. -/
def formatAll (c : Compilation) : String :=
  "\n\n".intercalate (c.diagnostics.map c.format)

/-- Every diagnostic is an error. -/
theorem errors_eq (c : Compilation) : c.errors = c.diagnostics := by
  simp [errors, Code.severity_eq_error]

end Compilation

end EoJava
