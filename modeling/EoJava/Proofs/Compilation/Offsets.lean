import EoJava.Proofs.Compilation.Tokens
import EoJava.Proofs.Grammar.Offsets
import EoJava.Proofs.Token.Forward

/-!
# Offsets of the tokens of a source

Whether or not a source is read to its end, the tokens that are stored never go back to an earlier
line, and so their offsets in the text that the grammar reads are exact (`tokenize_printed`).
-/

namespace EoJava

/-- What is met in a source is on its first line or later, and never on an earlier line than what
is met before. -/
theorem Scan.pairwise_lines (source : List Char) :
    (1 :: (Scan.source source).lexemes.map (·.position.line)).Pairwise (· ≤ ·) := by
  obtain ⟨met, closing, hparts⟩ := exists_parts source
  refine List.pairwise_cons.2 ⟨List.forall_mem_map.2 fun found hfound => ?_, hparts.lines_forward⟩
  exact (((within_source source).lexemes found hfound).bounds fun _ _ => Closes.line).1

namespace Compilation

/-- The tokens that a fresh compilation stores are printed with exact offsets. If there are any, the
search for a token gives one of them. -/
theorem tokenize_printed {c : Compilation} (hfresh : c.Fresh)
    (hsome : 0 < c.tokenize.2.tokens.size) :
    ∃ printed, Grammar.print c.tokenize.2.strings c.tokenize.2.tokens.toList = .ok printed ∧
      printed.Exact c.tokenize.2.strings c.tokenize.2.tokens ∧
      ∀ offset, printed.tokenAt offset < c.tokenize.2.tokens.size := by
  have hstores := stores_tokenize hfresh
  have hcarries : List.Forall₂ (Token.Carries c.tokenize.2.strings) c.tokenize.2.tokens.toList
      ((Scan.source c.source.toList).lexemes.map (·.value.terminal)) :=
    List.forall₂_map_right_iff.2 (hstores.imp fun _ _ h => h.carries)
  have hlegible : ∀ t ∈ (Scan.source c.source.toList).lexemes.map (·.value.terminal), t.Legible :=
    List.forall_mem_map.2 fun found hfound => Scan.legible_of_met hfound
  have hlines := Scan.pairwise_lines c.source.toList
  rw [← Grammar.map_eq_of_forall₂ hstores fun _ _ h => congrArg Position.line h.position] at hlines
  obtain ⟨printed, hprint, hexact⟩ := Grammar.exists_exact hcarries hlegible hlines
  refine ⟨printed, hprint, hexact, fun offset => ?_⟩
  rw [← hexact.size] at hsome ⊢
  exact Grammar.tokenAt_lt hexact.ascending hsome offset

/-- Layout, lines that hold nothing, a string that is escaped, and no line end after it. -/
theorem tokenize_printed_string :
    let c : Compilation := { source := "object A:\n\n  # s\n  T @s := \"\\n😀\"" }
    c.Fresh ∧ 0 < c.tokenize.2.tokens.size ∧
      ∃ printed, Grammar.print c.tokenize.2.strings c.tokenize.2.tokens.toList = .ok printed ∧
        printed.Exact c.tokenize.2.strings c.tokenize.2.tokens ∧
        ∀ offset, printed.tokenAt offset < c.tokenize.2.tokens.size := by
  intro c
  have hfresh : c.Fresh := ⟨rfl, rfl⟩
  have hsome : 0 < c.tokenize.2.tokens.size := by decide +kernel
  exact ⟨hfresh, hsome, tokenize_printed hfresh hsome⟩

end Compilation

end EoJava
