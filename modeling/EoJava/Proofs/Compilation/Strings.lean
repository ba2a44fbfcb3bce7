import EoJava.Proofs.Compilation.Compiles
import EoJava.Proofs.Java.Strings
import EoJava.Proofs.Source.Spelled
import EoJava.Proofs.Token.Scanning

/-!
# Compiled strings

The strings that are quoted in a source are those that are read in the units it compiles to, and
every string can be quoted in a source that compiles (`compile_strings`).
-/

namespace EoJava

open Grammar (Terminal)

/-! ## Any string -/

/-- A declaration with a string. -/
def Decl.holding (position memberPosition literalPosition : Position) (value : String) : Decl where
  position := position
  name := "A"
  interfaces := []
  members := [.attribute true
    ⟨memberPosition, "T", "x", some (.literal literalPosition (.string value))⟩]
  kind := none

/-- A declaration with a string becomes a unit. -/
theorem Decl.exists_emitted_holding (value : String) :
    ∃ unit, Java.Emitted (holding .nowhere .nowhere .nowhere value).classified unit := by
  let decl := holding .nowhere .nowhere .nowhere value
  have htexts : (Java.declTexts decl.classified).result = .ok _ := rfl
  obtain ⟨text, hunit⟩ := Java.exists_unitOf (Java.declTexts decl.classified).node _
  exact ⟨_, htexts, hunit⟩

namespace Compilation

/-- Any string is that of a source that compiles and has no other. -/
theorem exists_compile_string (filename value : String) :
    ∃ source met units, Scan.source source.toList = ⟨met, .ok ()⟩ ∧
      (met.filterMap fun found => found.value.terminal.string?) = [value] ∧
      compile source filename = .ok units := by
  let decl := Decl.holding .nowhere .nowhere .nowhere value
  have hterminals : decl.terminals =
      [.mark .objectWord, .name "A", .mark .colon, .newline, .indent, .name "T", .mark .atSign,
        .name "x", .mark .assign, .string value, .newline, .dedent] := rfl
  have hkinds : (Decl.programTerminals [decl]).map (·.kind) =
      [.mark .objectWord, .name, .mark .colon, .newline, .indent, .name, .mark .atSign, .name,
        .mark .assign, .string, .newline, .dedent, .endOfInput] := rfl
  have hlegible : ∀ decl' ∈ [decl], ∀ t ∈ decl'.terminals, t.Legible := by
    simp only [List.forall_mem_singleton, hterminals, List.forall_mem_cons, Terminal.Legible,
      true_and]
    exact ⟨by decide +kernel, by decide +kernel, by decide +kernel, by simp⟩
  have hfresh : ∀ decl' ∈ [decl], decl'.Fresh := by
    simp [decl, Decl.holding, Decl.Fresh, Member.Fresh, Slot.Fresh, Expr.Fresh]
  obtain ⟨met, hmet, hmet_source⟩ := Decl.source_written hlegible fun decl h => (hfresh decl h).2.1
  obtain ⟨unit, hunit⟩ := Decl.exists_emitted_holding value
  have hcompiles : Compiles (Decl.written [decl]).toList [decl] [unit] :=
    { spelled := ⟨met, hmet_source, hmet⟩
      shallow := by
        rw [hkinds]
        decide +kernel
      fresh := hfresh
      faultless := List.forall_mem_singleton.2 rfl
      names := List.nodup_singleton _
      emitted := .cons hunit .nil }
  refine ⟨Decl.written [decl], met, [unit], hmet_source, ?_, compile_eq_ok_iff.2 ⟨_, hcompiles⟩⟩
  have hstrings : (met.map (·.value.terminal)).filterMap Terminal.string? = [value] := by
    rw [hmet]
    rfl
  rwa [List.filterMap_map] at hstrings

/-- The strings of a source are those of the declarations that it spells, and of those that differ
from them in positions and bindings. -/
theorem Produces.strings_eq {c : Compilation} {met : List (Located Lexeme)}
    {decls bound : List Decl} {units : List JavaUnit} (h : c.Produces met decls units)
    (herased : bound.map Decl.erased = decls.map Decl.erased) :
    (met.filterMap fun found => found.value.terminal.string?) =
      (bound.flatMap fun decl => decl.terminals.filterMap Terminal.string?) := by
  have hmet := congrArg (List.filterMap Terminal.string?) h.spelled
  have hterminals : bound.map Decl.terminals = decls.map Decl.terminals := by
    simpa [Function.comp_def, Decl.terminals_erased]
      using congrArg (List.map Decl.terminals) herased
  rw [List.filterMap_map, Decl.programTerminals, List.filterMap_append, List.flatMap_def,
    ← hterminals, ← List.flatMap_def] at hmet
  exact hmet.trans ((List.append_nil _).trans (List.filterMap_flatMap ..))

end Compilation

/-- The strings of a source reach the units that it compiles to. Each stands in the source between
quotes; in order, they are those of the declarations; and the text of each unit is read with exactly
the strings of its declaration. The text of any string literal is read as this string and nothing
else, and any string is the only one of a source that compiles. -/
theorem compile_strings :
    (∀ {source filename : String} {units : List JavaUnit}, compile source filename = .ok units →
      ∃ met after decls, Scan.source source.toList = ⟨met, .ok ()⟩ ∧
        (∀ found ∈ met, ∀ value, found.value = .string value →
          Scan.QuotedAt source.toList found.position value) ∧
        ({ source, filename } : Compilation).run = (after, .ok units) ∧
        after.declarations = some decls ∧
        (met.filterMap fun found => found.value.terminal.string?) =
          (decls.flatMap fun decl => decl.terminals.filterMap Terminal.string?) ∧
        List.Forall₂ (fun decl unit =>
          (decl.terminals.filterMap Terminal.string?).Perm decl.strings ∧
            ∃ lexemes, Java.lexemes? unit.text.toList = some lexemes ∧
              Java.stringsOf lexemes = decl.strings) decls units) ∧
    (∀ scope position value, ∃ text,
      (Java.expressionText scope (.literal position (.string value))).result = .ok text ∧
        Java.lexemes? text.toList = some [.string value]) ∧
    ∀ filename value, ∃ source met units, Scan.source source.toList = ⟨met, .ok ()⟩ ∧
      (met.filterMap fun found => found.value.terminal.string?) = [value] ∧
      compile source filename = .ok units := by
  refine ⟨fun h => ?_, fun scope position value => ?_, Compilation.exists_compile_string⟩
  · obtain ⟨after, met, decls, bound, hrun, hproduces, hbound, herased⟩ :=
      Compilation.produces_of_compile h
    refine ⟨met, after, bound, hproduces.read, fun found hfound value hvalue => ?_, hrun, hbound,
      hproduces.strings_eq herased,
      hproduces.forall₂_of_erased herased
        fun decl found unit haccepted hspellable hemitted heq => ?_⟩
    · refine Scan.quotedAt_of_met ?_ hvalue
      rwa [hproduces.read]
    · refine ⟨found.strings_perm, _, Java.outline_congr heq ▸ hemitted.reads hspellable, ?_⟩
      rw [Java.outline_congr heq, Java.stringsOf_outline haccepted, ← found.strings_erased, heq,
        decl.strings_erased]
  · exact ⟨_, rfl, (Java.spells_stringLiteral value).lexemes?_eq⟩

/-- A default with escapes in a source that compiles. -/
theorem compile_strings_escapes :
    let source := "object A:\n  T @x := \"a\\\"\\\\u0041\\n\"\n"
    ∃ units met after decls, compile source "a.eo" = .ok units ∧
      Scan.source source.toList = ⟨met, .ok ()⟩ ∧
      ({ source, filename := "a.eo" } : Compilation).run = (after, .ok units) ∧
      after.declarations = some decls ∧
      (met.filterMap fun found => found.value.terminal.string?) =
        (decls.flatMap fun decl => decl.terminals.filterMap Terminal.string?) ∧
      List.Forall₂ (fun decl unit => ∃ lexemes, Java.lexemes? unit.text.toList = some lexemes ∧
        Java.stringsOf lexemes = decl.strings) decls units := by
  intro source
  have hok : (compile source "a.eo").isOk = true := by decide +kernel
  cases hunits : compile source "a.eo" with
  | error stop =>
      rw [hunits] at hok
      cases hok
  | ok units =>
      obtain ⟨met, after, decls, hmet, -, hrun, hdecls, hstrings, hread⟩ := compile_strings.1 hunits
      exact ⟨units, met, after, decls, rfl, hmet, hrun, hdecls, hstrings,
        hread.imp fun _ _ h => h.2⟩

end EoJava
