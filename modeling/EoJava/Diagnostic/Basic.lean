import EoJava.Diagnostic.Catalog
import EoJava.Diagnostic.Problem
import EoJava.Text.Position

/-!
# Diagnostics

A diagnostic is a code at a place of the source, with its message filled in. One that was found at
a token also names the token.
-/

namespace EoJava

/-- A problem reported at a place. -/
structure Diagnostic where
  code : Code
  message : String
  position : Position
  arguments : Option Arguments
  token : Option Nat
deriving DecidableEq, Repr

namespace Diagnostic

/-- The diagnostic of a code, its message filled with arguments. -/
def make (code : Code) (position : Position) (arguments : Option Arguments)
    (token : Option Nat) : Diagnostic :=
  { code, position, arguments, token, message := code.entry.message.fill (arguments.getD []) }

/-- The diagnostic of a problem at a place. -/
def ofProblem (found : Located Problem) : Diagnostic :=
  make found.value.code found.position found.value.arguments none

/-- What to do about a diagnostic. -/
def suggestion (d : Diagnostic) : String :=
  d.code.entry.suggestion.fill (d.arguments.getD [])

@[simp]
theorem code_make (code : Code) (position : Position) (arguments : Option Arguments)
    (token : Option Nat) : (make code position arguments token).code = code := rfl

end Diagnostic

end EoJava
