import EoJava.Proofs.Compilation.Tokens
import EoJava.Proofs.Token.Tiling

/-!
# Nothing of a source is lost

The tokens of a source that is read to its end spell it out, line by line (`tokenize_covers`).
-/

namespace EoJava

open Grammar (Terminal)

/-- A token carries a terminal and is at its place. -/
def Token.Places (table : StringTable) (token : Token) (found : Located Terminal) : Prop :=
  token.Carries table found.value ∧ token.position = found.position

namespace Compilation

/-- The tokens that a fresh compilation reads its source into cover it. A line that is bare has no
token with content; any other line is the spellings of the tokens on it, each where its token is
placed and none with a character after it that it could go on with, between spaces and tabs and with
a comment at most at the end. -/
theorem tokenize_covers {c read : Compilation} (hfresh : c.Fresh)
    (h : c.tokenize = (true, read)) :
    ∃ placed, List.Forall₂ (Token.Places read.strings) read.tokens.toList placed ∧
      Scan.Covers 1 (Text.lines (Text.dropMark c.source.toList)) placed := by
  obtain ⟨met, hsource, hstores⟩ := stores_of_tokenize hfresh h
  refine ⟨met.map Lexeme.placed, ?_, Scan.covers_of_source hsource⟩
  exact List.forall₂_map_right_iff.2 (hstores.imp fun _ _ h => ⟨h.carries, h.position⟩)

/-- A line with every sort of token, after a byte order mark and a comment. -/
theorem tokenize_covers_line :
    let c : Compilation := { source := "\uFEFF# c\r\nobject a:=-1.5 :\"\\n😀\",true#)\r\n" }
    ∃ read placed, c.tokenize = (true, read) ∧
      List.Forall₂ (Token.Places read.strings) read.tokens.toList placed ∧
      Scan.Covers 1 (Text.lines (Text.dropMark c.source.toList)) placed := by
  intro c
  have hdone : c.tokenize.1 = true := by decide +kernel
  have hread : c.tokenize = (true, c.tokenize.2) := Prod.ext hdone rfl
  obtain ⟨placed, hplaces, hcovers⟩ := tokenize_covers ⟨rfl, rfl⟩ hread
  exact ⟨c.tokenize.2, placed, hread, hplaces, hcovers⟩

end Compilation

end EoJava
