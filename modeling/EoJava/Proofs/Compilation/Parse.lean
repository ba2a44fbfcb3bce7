import EoJava.Proofs.Compilation.Tokens
import EoJava.Proofs.Grammar.Language

/-!
# The parse stage

The parse stage takes the tokens of a source exactly if the documented grammar derives their kinds.
The declarations that it stores spell the tokens, and if it stores none it reports one diagnostic
(`parse_iff_derives`).
-/

namespace EoJava

open Grammar (Terminal Carried Derives Shallow)

namespace Compilation

variable {c read : Compilation} {us : List Terminal}

/-- A refusal at one of the tokens is reported as one diagnostic there, and nothing else changes. -/
theorem parse_of_refusal {id : Nat} {problem : Problem}
    (h : Grammar.parse c.strings c.tokens = .ok (.error ⟨id, problem⟩)) (hid : id < c.tokens.size) :
    c.parse = .ok (false,
      c.add (.make problem.code c.tokens[id].position problem.arguments (some id))) := by
  have htoken : c.token id = .ok c.tokens[id] := by
    simp [token, Grammar.tokenOf, hid]
  simp only [parse, h, ok_bind, reportAtToken, htoken]
  rfl

/-- Declarations that are read are stored. -/
theorem parse_of_declarations {decls : List Decl}
    (h : Grammar.parse c.strings c.tokens = .ok (.ok decls)) :
    c.parse = .ok (true, { c with declarations := some decls }) := by
  simp only [parse, h, ok_bind]
  rfl

/-- The tokens of a source are read, or one diagnostic of this stage is reported. -/
theorem parse_cases (h : Carried c.strings c.tokens us) :
    (∃ decls, c.parse = .ok (true, { c with declarations := some decls })) ∨
      ∃ diagnostic, c.parse = .ok (false, c.add diagnostic) ∧
        diagnostic.code.stage = .parse := by
  by_cases hshallow : Shallow (c.tokens.toList.map (·.kind))
  · obtain ⟨decls, hparse, -⟩ | ⟨id, detail, hparse, -, hid, -⟩ := h.parse_cases hshallow
    · exact .inl ⟨decls, parse_of_declarations hparse⟩
    · exact .inr ⟨_, parse_of_refusal hparse hid, rfl⟩
  · obtain ⟨id, hparse, -, hid⟩ := Grammar.parse_of_not_shallow c.strings hshallow
    exact .inr ⟨_, parse_of_refusal hparse hid, rfl⟩

/-- The grammar derives the kinds of the tokens of a source if they spell fresh declarations. -/
theorem derives_iff_spelled (h : Carried c.strings c.tokens us) :
    Derives (.rule .program) (c.tokens.toList.map (·.kind)) ↔
      ∃ decls : List Decl, (∀ decl ∈ decls, decl.Fresh) ∧
        Decl.programTerminals decls = us ++ [.endOfInput] := by
  rw [h.map_kind]
  exact Grammar.fits_program_iff

/-- A source whose tokens have few enough open parentheses is parsed exactly if the grammar derives
their kinds, and accepting them is the same. The declarations that are stored then spell the tokens,
each with its text. Otherwise those that were stored stay, and there is one more diagnostic. -/
theorem parse_iff_derives (hfresh : c.Fresh) (hread : c.tokenize = (true, read))
    (hshallow : Shallow (read.tokens.toList.map (·.kind))) :
    ∃ succeeded after, read.parse = .ok (succeeded, after) ∧ read.accepts = .ok succeeded ∧
      (succeeded = true ↔ Derives (.rule .program) (read.tokens.toList.map (·.kind))) ∧
      (succeeded = true → ∃ decls, after = { read with declarations := some decls } ∧
        List.Forall₂ (Token.Carries read.strings) read.tokens.toList
          (Decl.programTerminals decls)) ∧
      (succeeded = false → ∃ diagnostic, after = read.add diagnostic) := by
  obtain ⟨found, us, htokenize, -, hcarried, -⟩ | ⟨found, problem, htokenize, -⟩ :=
    tokenize_cases hfresh
  · obtain rfl : found = read := by
      rw [hread] at htokenize
      cases htokenize
      rfl
    obtain ⟨decls, hparse, haccepts, hdecls, hspelled⟩ |
      ⟨id, detail, hparse, haccepts, hid, hnone⟩ := hcarried.parse_cases hshallow
    · have hderives := (derives_iff_spelled hcarried).2 ⟨decls, hdecls, hspelled⟩
      exact ⟨true, _, parse_of_declarations hparse, haccepts, by simp [hderives],
        fun _ => ⟨decls, rfl, hspelled ▸ hcarried.carries⟩, by simp⟩
    · have hderives : ¬Derives (.rule .program) (found.tokens.toList.map (·.kind)) := by
        intro h
        obtain ⟨decls, hdecls, hspelled⟩ := (derives_iff_spelled hcarried).1 h
        exact hnone decls hdecls hspelled
      exact ⟨false, _, parse_of_refusal hparse hid, haccepts, by simp [hderives], by simp,
        fun _ => ⟨_, rfl⟩⟩
  · rw [hread] at htokenize
    cases htokenize

/-- An object with one attribute is tokenized, and its kinds are derived. -/
theorem parse_iff_derives_attribute :
    ∃ read succeeded after,
      ({ source := "object A:\n  T x\n" } : Compilation).tokenize = (true, read) ∧
      read.parse = .ok (succeeded, after) ∧
      (succeeded = true ↔ Derives (.rule .program) (read.tokens.toList.map (·.kind))) := by
  let c : Compilation := { source := "object A:\n  T x\n" }
  have hread : c.tokenize = (true, c.tokenize.2) :=
    Prod.ext (by decide +kernel) rfl
  obtain ⟨succeeded, after, hparse, -, hderives, -⟩ :=
    parse_iff_derives (c := c) ⟨rfl, rfl⟩ hread (by decide +kernel)
  exact ⟨_, succeeded, after, hread, hparse, hderives⟩

end Compilation

end EoJava
