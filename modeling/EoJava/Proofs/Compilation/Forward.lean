import EoJava.Compilation.Run
import EoJava.Proofs.Compilation.Layout
import EoJava.Proofs.Token.Forward

/-!
# The order of the tokens of a source

The tokens that are pulled from a source never go back to an earlier line. On one line they go
forward as well, up to those that close the source at the start of its last line
(`drain_forward`). So a source that does not end with a line end goes back there, and what is wrong
with its end is told at the start of that line (`drain_backward`).
-/

namespace EoJava

namespace Scanner

/-- The tokens of a source go forward, up to those that close it: dedents and the end of the
source, at the start of the last line. No token is on an earlier line than the one before it. All
tokens go forward exactly if the scan stops at a problem, or every token on the last line is at the
start of it; and so they do if the last line holds nothing. -/
theorem drain_forward (source filename : String) :
    let tokens := (start { source, filename }).drain.1
    let diagnostics := (start { source, filename }).drain.2.diagnostics
    let texts := Text.lines (Text.dropMark source.toList)
    (tokens.map (·.position.line)).Pairwise (· ≤ ·) ∧
      (∃ n, ((tokens.take n).map (·.position)).Pairwise (· ≤ ·) ∧
        (∀ token ∈ tokens.drop n, token.position = ⟨texts.length, 1⟩) ∧
        ((tokens.drop n).map (·.kind) = [] ∧ diagnostics ≠ [] ∨
          ∃ k, (tokens.drop n).map (·.kind) = List.replicate k .dedent ++ [.endOfInput] ∧
            diagnostics = [])) ∧
      ((tokens.map (·.position)).Pairwise (· ≤ ·) ↔ diagnostics ≠ [] ∨
        ∀ token ∈ tokens, token.position.line = texts.length → token.position.column = 1) ∧
      ((∀ text ∈ texts.getLast?, Text.holdsNothing text) →
        (tokens.map (·.position)).Pairwise (· ≤ ·)) := by
  intro tokens diagnostics texts
  obtain ⟨strings, hdone, hstores⟩ := drain_start source filename
  obtain ⟨met, closing, hparts⟩ := Scan.exists_parts source.toList
  have hpositions : tokens.map (·.position) = (Scan.source source.toList).positions :=
    Grammar.map_eq_of_forall₂ hstores fun _ _ h => h.position
  have hdiagnostics : diagnostics = _ := congrArg Compilation.diagnostics hdone
  have hstopped : diagnostics ≠ [] ↔
      ∃ problem, (Scan.source source.toList).outcome = .error problem := by
    rw [hdiagnostics]
    cases (Scan.source source.toList).outcome <;> simp
  have hat (P : Position → Prop) : (∀ found ∈ (Scan.source source.toList).lexemes,
      P found.position) ↔ ∀ token ∈ tokens, P token.position := by
    rw [← List.forall_mem_map, ← Reading.positions, ← hpositions, List.forall_mem_map]
  have hmet : List.Forall₂ (Token.Stores strings) (tokens.take met.length) met := by
    have := List.forall₂_take met.length hstores
    rwa [hparts.eq, List.take_left] at this
  have hclosing : List.Forall₂ (Token.Stores strings) (tokens.drop met.length) closing := by
    have := List.forall₂_drop met.length hstores
    rwa [hparts.eq, List.drop_left] at this
  refine ⟨?_, ⟨met.length, ?_, ?_, ?_⟩, ?_, ?_⟩
  · rw [Grammar.map_eq_of_forall₂ hstores fun _ _ h => congrArg Position.line h.position]
    exact hparts.lines_forward
  · rw [Grammar.map_eq_of_forall₂ hmet fun _ _ h => h.position]
    exact hparts.forward
  · have hplaces : ∀ position ∈ (tokens.drop met.length).map (·.position),
        position = ⟨texts.length, 1⟩ := by
      rw [Grammar.map_eq_of_forall₂ hclosing fun _ _ h => h.position]
      exact List.forall_mem_map.2 hparts.start
    exact List.forall_mem_map.1 hplaces
  · rw [Grammar.map_eq_of_forall₂ hclosing fun _ _ h => h.carries.kind]
    obtain ⟨hread, dedents, position, rfl, hdedents⟩ | ⟨hproblem, rfl⟩ := hparts.ends
    · refine .inr ⟨dedents.length, ?_, by rw [hdiagnostics, hread]⟩
      have hkinds : dedents.map (·.value.terminal.kind) = dedents.map fun _ => Kind.dedent :=
        List.map_congr_left fun found hfound => by
          rw [Lexeme.kind_terminal, hdedents found hfound]
      rw [List.map_append, hkinds, List.map_const']
      rfl
    · exact .inl ⟨rfl, hstopped.2 hproblem⟩
  · rw [hpositions, hstopped]
    exact (Scan.forward_source_iff _).trans (or_congr_right
      (hat fun position => position.line = texts.length → position.column = 1))
  · rw [hpositions]
    exact Scan.forward_source_of_bare

/-- A line without a line end is gone back on: the end of the source is met at the start of the
line, and there it is told that the line is followed by no member. -/
theorem drain_backward :
    ¬((start { source := "object A:" }).drain.1.map (·.position)).Pairwise (· ≤ ·) ∧
      (start { source := "object A:" }).drain.1.map (fun token => (token.kind, token.position)) =
        [(.mark .objectWord, ⟨1, 1⟩), (.name, ⟨1, 8⟩), (.mark .colon, ⟨1, 9⟩), (.newline, ⟨1, 10⟩),
          (.endOfInput, ⟨1, 1⟩)] ∧
      ∃ error, compile "object A:" = .error (.refused error) ∧
        error.diagnostic.message = "syntax error: expected an indented block, found end of input" ∧
        error.diagnostic.position = ⟨1, 1⟩ := by
  refine ⟨by decide +kernel, by decide +kernel, ?_⟩
  have hrefused : (match compile "object A:" with
      | .error (.refused error) => some (error.diagnostic.message, error.diagnostic.position)
      | _ => none) =
        some ("syntax error: expected an indented block, found end of input", ⟨1, 1⟩) := by
    decide +kernel
  split at hrefused
  · next error herror =>
      obtain ⟨hmessage, hposition⟩ := Prod.ext_iff.1 (Option.some.inj hrefused)
      exact ⟨error, herror, hmessage, hposition⟩
  · cases hrefused

end Scanner

end EoJava
