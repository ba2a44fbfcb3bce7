import EoJava.Compilation.Stages

/-!
# Pulling tokens one at a time

A scanner gives the tokens of a compilation's source on demand. Pulling a token stores its text but
not the token; the problem that ends the scan is reported by the pull after the last token, and
every later pull gives nothing.
-/

namespace EoJava

/-- A compilation and what is left to pull: lexemes, then a problem if the scan ends in one. -/
structure Scanner where
  compilation : Compilation
  pending : List (Located Lexeme)
  problem? : Option (Located Problem)

namespace Scanner

/-- The scanner of a compilation's source. -/
def start (c : Compilation) : Scanner :=
  let reading := Scan.source c.source.toList
  { compilation := c, pending := reading.lexemes
    problem? :=
      match reading.outcome with
      | .ok () => none
      | .error problem => some problem }

/-- The next token, if there is one. -/
def pull (s : Scanner) : Option Token × Scanner :=
  match s.pending, s.problem? with
  | lexeme :: pending, _ =>
    let (token, strings) := s.compilation.strings.store lexeme
    (some token, { s with compilation := { s.compilation with strings }, pending })
  | [], some problem =>
    (none, { s with compilation := s.compilation.report problem, problem? := none })
  | [], none => (none, s)

end Scanner

end EoJava
