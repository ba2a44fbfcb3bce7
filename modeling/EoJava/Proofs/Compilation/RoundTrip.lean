import EoJava.Proofs.Compilation.Parse
import EoJava.Proofs.Source.Spelled

/-!
# Reading canonical sources

The canonical source of declarations is read back as these declarations, up to their positions.
-/

namespace EoJava

open Grammar (Shallow)

/-- A declaration as it was read, whose names are identifiers and whose numbers are numerals. -/
structure Decl.Writable (decl : Decl) : Prop where
  fresh : decl.Fresh
  legible : ∀ t ∈ decl.terminals, t.Legible

namespace Compilation

/-- The canonical source of declarations is tokenized and parsed without a diagnostic, and what is
stored then differs from them in positions only. -/
theorem parse_written {c : Compilation} {decls : List Decl} (hfresh : c.Fresh)
    (hsource : c.source = Decl.written decls) (hdecls : ∀ decl ∈ decls, decl.Writable)
    (hshallow : Shallow ((Decl.programTerminals decls).map (·.kind))) :
    ∃ read after found, c.tokenize = (true, read) ∧ read.parse = .ok (true, after) ∧
      after.diagnostics = [] ∧ after.declarations = some found ∧
      found.map Decl.placeless = decls.map Decl.placeless := by
  obtain ⟨met, hmet, hread⟩ := Decl.source_written (fun decl h => (hdecls decl h).legible)
    fun decl h => (hdecls decl h).fresh.2.1
  rw [← hsource] at hread
  obtain ⟨read, us, htokenize, hnone, hcarried, hus, -⟩ := tokenize_of_source hfresh hread
  have hspelled : Decl.programTerminals decls = us ++ [.endOfInput] := hmet.symm.trans hus
  rw [hspelled, ← hcarried.map_kind] at hshallow
  obtain ⟨found, hparse, heq⟩ := hcarried.parse_of_spelled hshallow
    (fun decl h => (hdecls decl h).fresh) hspelled
  exact ⟨read, _, found, htokenize, parse_of_declarations hparse, hnone, rfl, heq⟩

/-- A declaration with a quote in a default and a call in a body is read back. -/
theorem parse_written_declaration :
    let decl : Decl := {
      position := .nowhere
      name := "A"
      interfaces := [⟨.nowhere, "B"⟩]
      members := [
        .attribute true ⟨.nowhere, "Text", "x", some (.literal .nowhere (.string "a\"b"))⟩,
        .method ⟨.nowhere, "Text", "run", [⟨.nowhere, "Text", "y", none⟩],
          some (.call .nowhere "f" [.reference .nowhere "y" none])⟩]
      kind := none }
    ∃ read after found, ({ source := Decl.written [decl] } : Compilation).tokenize = (true, read) ∧
      read.parse = .ok (true, after) ∧ after.diagnostics = [] ∧ after.declarations = some found ∧
      found.map Decl.placeless = [decl].map Decl.placeless := by
  intro decl
  have hdecl : decl.Writable := {
    fresh := ⟨rfl, by simp [decl], by
      simp [decl, Member.Fresh, Slot.Fresh, Method.Fresh, Expr.Fresh]⟩
    legible := by decide +kernel }
  exact parse_written (c := { source := Decl.written [decl] }) ⟨rfl, rfl⟩ rfl (by simpa using hdecl)
    (by decide +kernel)

end Compilation

end EoJava
