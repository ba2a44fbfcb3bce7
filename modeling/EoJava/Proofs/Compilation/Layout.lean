import EoJava.Compilation.Pull
import EoJava.Proofs.Compilation.Tokens
import EoJava.Proofs.Token.Offside

/-!
# Layout of the tokens of a source

`Scanner.drain` pulls tokens until there are none. The tokens of any source are laid out in blocks,
and its lines follow the offside rule (`drain_offside`).
-/

namespace EoJava

namespace Scanner

/-- A token that is pulled is taken off those that are left. -/
theorem pending_of_pull {s rest : Scanner} {token : Token} (h : s.pull = (some token, rest)) :
    rest.pending.length < s.pending.length := by
  unfold pull at h
  split at h
  · next lexeme pending hpending =>
      cases h
      rw [hpending]
      exact Nat.lt_succ_self _
  · cases h
  · cases h

/-- All tokens that are left to pull, and the compilation after them. -/
def drain (s : Scanner) : List Token × Compilation :=
  match _h : s.pull with
  | (some token, rest) => (token :: rest.drain.1, rest.drain.2)
  | (none, rest) => ([], rest.compilation)
termination_by s.pending.length
decreasing_by all_goals exact pending_of_pull _h

/-- The tokens that are pulled stand for the lexemes that were left, and the problem that was left
is reported. -/
theorem drain_eq (c : Compilation) (pending : List (Located Lexeme))
    (problem? : Option (Located Problem)) : ∃ (tokens : List Token) (strings : StringTable),
    drain ⟨c, pending, problem?⟩ = (tokens,
      { c with
        strings
        diagnostics := c.diagnostics ++ (problem?.map Diagnostic.ofProblem).toList }) ∧
      c.strings.Extends strings ∧ List.Forall₂ (Token.Stores strings) tokens pending := by
  induction pending generalizing c with
  | nil =>
      refine ⟨[], c.strings, ?_, .refl _, .nil⟩
      cases problem? with
      | none =>
          rw [drain]
          simp [pull]
      | some problem =>
          rw [drain]
          simp [pull, Compilation.report, Compilation.add]
  | cons found pending ih =>
      obtain ⟨tokens, strings, hdrain, hextends, hstores⟩ :=
        ih { c with strings := (c.strings.store found).2 }
      refine ⟨(c.strings.store found).1 :: tokens, strings, ?_,
        (c.strings.extends_store found).trans hextends,
        .cons ((c.strings.stores_store found).extend hextends) hstores⟩
      rw [drain]
      simp [pull, hdrain]

variable (source filename : String)

/-- Draining the scanner of a source gives tokens for its lexemes, and reports its problem. -/
theorem drain_start : ∃ strings,
    (start { source, filename }).drain.2 = { source, filename, strings, diagnostics :=
      match (Scan.source source.toList).outcome with
      | .ok () => []
      | .error problem => [.ofProblem problem] } ∧
    List.Forall₂ (Token.Stores strings) (start { source, filename }).drain.1
      (Scan.source source.toList).lexemes := by
  obtain ⟨tokens, strings, hdrain, -, hstores⟩ := drain_eq { source, filename }
    (Scan.source source.toList).lexemes (start { source, filename }).problem?
  have hstart : (start { source, filename }).drain = (tokens, _) := hdrain
  rw [hstart]
  refine ⟨strings, ?_, hstores⟩
  simp only [start]
  cases (Scan.source source.toList).outcome <;> rfl

/-- The tokens of a source are laid out in blocks, and if it is read to its end, all blocks are
closed there. A line that is not bare and starts outside parentheses follows the offside rule if the
scan comes to it. -/
theorem drain_offside :
    List.Forall₂ (Token.Stores (start { source, filename }).drain.2.strings)
        (start { source, filename }).drain.1 (Scan.source source.toList).lexemes ∧
      Scan.Laid (Scan.source source.toList).lexemes ∧
      ((start { source, filename }).drain.2.diagnostics = [] →
        ∃ init position, (Scan.source source.toList).lexemes = init ++ [⟨position, .endOfInput⟩] ∧
          Scan.blocks init = 0) ∧
      ∀ i text,
        Scan.Governs (Text.lines (Text.dropMark source.toList)) (Scan.source source.toList).lexemes
          i text →
        (∀ d ∈ (start { source, filename }).drain.2.diagnostics, 1 + (i : Int) ≤ d.position.line) →
        Scan.Offside (Text.lines (Text.dropMark source.toList))
          (Scan.source source.toList).lexemes i text
          (∃ d ∈ (start { source, filename }).drain.2.diagnostics,
            d.code = .unmatchedUnindent ∧ d.position.line = 1 + i) := by
  obtain ⟨strings, hdone, hstores⟩ := drain_start source filename
  rw [hdone]
  refine ⟨hstores, Scan.laid_source source.toList, fun hnone => ?_,
    fun i text hgoverns hreached => ?_⟩
  · rcases hread : Scan.source source.toList with ⟨lexemes, problem | ⟨⟩⟩
    · rw [hread] at hnone
      cases hnone
    · exact Scan.balanced_source hread
  · refine (Scan.offside_line hgoverns fun problem hproblem => ?_).congr ?_
    · exact hreached (.ofProblem problem) (by simp [hproblem])
    · rcases (Scan.source source.toList).outcome with problem | ⟨⟩
      · simp [Diagnostic.ofProblem, Diagnostic.make]
      · simp

/-- A line that is less wide than the innermost block and as wide as no level is refused. -/
theorem drain_offside_refused :
    ∃ d ∈ (start { source := "object A:\n    T @x\n  T @y\n" }).drain.2.diagnostics,
      d.code = .unmatchedUnindent ∧ d.position.line = 3 := by
  let source := "object A:\n    T @x\n  T @y\n"
  let met := (Scan.source source.toList).lexemes
  let texts := Text.lines (Text.dropMark source.toList)
  let text := "  T @y".toList
  have hgoverns : Scan.Governs texts met 2 text :=
    ⟨by decide +kernel, by decide +kernel, by decide +kernel⟩
  have hreached : ∀ d ∈ (start { source }).drain.2.diagnostics,
      1 + ((2 : Nat) : Int) ≤ d.position.line := by
    decide +kernel
  have hspace : text.takeWhile Text.isGap = [' ', ' '] := by decide +kernel
  have hindented : Text.indentation? text = some ' ' := congrArg List.head? hspace
  have hearlier : ∀ j < 2, ∀ other ∈ texts[j]?,
      Text.indentation? other = none ∨ Text.indentation? other = some ' ' := by
    decide +kernel
  have halike : Scan.Alike texts met 2 text := by
    refine ⟨fun c hc => ?_, fun j other hj hother c hc d hd => ?_⟩
    · rw [hspace] at hc
      obtain rfl : c = ' ' := by simpa using hc
      exact hindented
    · obtain rfl : ' ' = d := Option.some.inj (hindented.symm.trans hd)
      rcases hearlier j hj other hother.get with hnone | hspace
      · rw [hnone] at hc
        cases hc
      · exact Option.some.inj (hc.symm.trans hspace)
  have hrule := (drain_offside source "<input>").2.2.2 2 _ hgoverns hreached
  exact (hrule.refused_iff halike).2 ⟨by decide +kernel, by decide +kernel⟩

end Scanner

end EoJava
