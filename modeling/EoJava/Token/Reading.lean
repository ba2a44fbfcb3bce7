import EoJava.Diagnostic.Problem
import EoJava.Token.Basic

/-!
# Readings

A reading is what a part of the scanner has met: the lexemes in order, and then either a result or
the problem that stopped it. Lexemes met before a problem stay met.
-/

namespace EoJava

/-- Lexemes in order, followed by a result or a problem. -/
structure Reading (α : Type) where
  lexemes : List (Located Lexeme)
  outcome : Except (Located Problem) α

namespace Reading

/-- A reading that meets one lexeme. -/
def emit (position : Position) (lexeme : Lexeme) : Reading Unit :=
  ⟨[⟨position, lexeme⟩], .ok ()⟩

/-- A reading that stops at a problem. -/
def fail {α : Type} (position : Position) (problem : Problem) : Reading α :=
  ⟨[], .error ⟨position, problem⟩⟩

/-- One reading after another. The second does not take place if the first stops. -/
def bind {α β : Type} (first : Reading α) (next : α → Reading β) : Reading β :=
  match first.outcome with
  | .ok result => ⟨first.lexemes ++ (next result).lexemes, (next result).outcome⟩
  | .error problem => ⟨first.lexemes, .error problem⟩

/-- Readings in sequence. -/
instance : Monad Reading where
  pure result := ⟨[], .ok result⟩
  bind := bind

end Reading

end EoJava
