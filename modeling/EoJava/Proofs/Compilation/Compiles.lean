import EoJava.Proofs.Compilation.Units
import EoJava.Proofs.Java.Texts
import EoJava.Proofs.Shape.Erased
import EoJava.Proofs.Token.Joining

/-!
# What compiles

A source compiles to units exactly if it spells declarations that can be classified and become these
units (`compile_eq_ok_iff`). No stage looks at anything else: neither positions, nor the ids of
texts, nor the name of the file.
-/

namespace EoJava

open Grammar (Shallow)

/-- A source spells declarations, no two of them with the same name and none with a fault, which
become units. -/
structure Compiles (source : List Char) (decls : List Decl) (units : List JavaUnit) : Prop where
  spelled : (Scan.source source).Yields (Decl.programTerminals decls) ()
  shallow : Shallow ((Decl.programTerminals decls).map (·.kind))
  fresh : ∀ decl ∈ decls, decl.Fresh
  faultless : ∀ decl ∈ decls, decl.fault? = none
  names : (decls.map Decl.name).Nodup
  emitted : List.Forall₂ Java.Emitted (decls.map Decl.classified) units

namespace Compiles

variable {source : List Char} {decls : List Decl} {units : List JavaUnit}

/-- Units have the names of their declarations. -/
theorem names_eq (h : Compiles source decls units) :
    units.map JavaUnit.name = decls.map Decl.name := by
  have hnames := Java.names_of_emitted h.emitted
  rw [List.map_map] at hnames
  exact hnames

theorem nodup_names (h : Compiles source decls units) : (units.map JavaUnit.name).Nodup :=
  h.names_eq ▸ h.names

/-- The name of a unit is an identifier, as it was met in the source. -/
theorem isIdentifier (h : Compiles source decls units) :
    ∀ unit ∈ units, isIdentifier unit.name := by
  intro unit hunit
  have hname := List.mem_map_of_mem (f := JavaUnit.name) hunit
  rw [h.names_eq] at hname
  obtain ⟨decl, hdecl, hname⟩ := List.mem_map.1 hname
  obtain ⟨met, hmet, hterminals⟩ := h.spelled
  have hspelled : Grammar.Terminal.name decl.name ∈ met.map (·.value.terminal) := by
    rw [hterminals]
    exact List.mem_append_left _
      (List.mem_flatMap.2 ⟨decl, hdecl, by simp [Decl.terminals]⟩)
  obtain ⟨found, hfound, hterminal⟩ := List.mem_map.1 hspelled
  have hlexeme : found ∈ (Scan.source source).lexemes := by
    rw [hmet]
    exact hfound
  have hlegible := Scan.legible_of_met hlexeme
  rwa [hterminal, hname] at hlegible

end Compiles

namespace Compilation

variable {c read parsed shaped after : Compilation} {decls : List Decl} {units : List JavaUnit}

/-- Declarations are classified without a diagnostic exactly if none has a fault, and no two have
the same name. -/
theorem classify_iff (hdecls : c.declarations = some decls) : c.classify.1 = true ↔
    (∀ decl ∈ decls, decl.fault? = none) ∧ (decls.map Decl.name).Nodup := by
  rw [← Shape.classify_iff]
  rcases hclassify : Shape.classify decls with ⟨found, _ | fault⟩ <;>
    simp [classify, hdecls, hclassify]

/-- A fresh compilation that completes has a source that compiles. -/
theorem compiles_of_completes (hfresh : c.Fresh) (h : c.Completes after units) :
    ∃ decls, Compiles c.source.toList decls units := by
  obtain ⟨hread, hparsed, hshaped, hafter⟩ := h
  obtain ⟨met, decls, hmet, hspelled, -, hshallow, hdecls, rfl⟩ :=
    declarations_of_tokenize hfresh hread hparsed
  obtain ⟨hfaultless, hnames⟩ := (classify_iff rfl).1 (congrArg Prod.fst hshaped)
  obtain ⟨hclassified, -⟩ := accepted_of_classify rfl hshaped
  obtain ⟨hemitted, -⟩ := emitted_of_emit hclassified hafter
  exact ⟨decls, ⟨met, hmet, hspelled⟩, hshallow, hdecls, hfaultless, hnames, hemitted⟩

/-- The units of declarations are those of any that differ in positions and bindings only. -/
theorem emitted_of_erased {found : List Decl} (heq : found.map Decl.erased = decls.map Decl.erased)
    (h : List.Forall₂ Java.Emitted (decls.map Decl.classified) units) :
    List.Forall₂ Java.Emitted (found.map Decl.classified) units := by
  have herased (decls : List Decl) : List.Forall₂ Java.Emitted (decls.map Decl.classified) units ↔
      List.Forall₂ Java.Emitted ((decls.map Decl.erased).map Decl.classified) units := by
    simp only [List.forall₂_map_left_iff, ← Decl.erased_classified, Java.emitted_erased]
  rw [herased, heq, ← herased]
  exact h

/-- A fresh compilation of a source that compiles completes. -/
theorem completes_of_compiles (hfresh : c.Fresh) (h : Compiles c.source.toList decls units) :
    ∃ after, c.Completes after units := by
  obtain ⟨met, hmet, hterminals⟩ := h.spelled
  obtain ⟨read, us, hread, -, hcarried, hus, -⟩ := tokenize_of_source hfresh hmet
  have hspelled : Decl.programTerminals decls = us ++ [.endOfInput] := hterminals.symm.trans hus
  have hshallow : Shallow (read.tokens.toList.map (·.kind)) := by
    rw [hcarried.map_kind, ← hspelled]
    exact h.shallow
  obtain ⟨found, hparse, hplaceless⟩ := hcarried.parse_of_spelled hshallow h.fresh hspelled
  -- What is parsed has other positions, which count for nothing that follows.
  have herased : found.map Decl.erased = decls.map Decl.erased := by
    have := congrArg (List.map Decl.erased) hplaceless
    simpa [Function.comp_def, Decl.erased_placeless] using this
  have hnames : found.map Decl.name = decls.map Decl.name := by
    have := congrArg (List.map Decl.name) herased
    simpa [Function.comp_def, Decl.erased] using this
  have hfaultless : ∀ decl ∈ found, decl.fault? = none := by
    have hall : ∀ decls : List Decl, (∀ decl ∈ decls, decl.fault? = none) ↔
        ∀ decl ∈ decls.map Decl.erased, decl.fault? = none := by
      simp [Decl.fault?_erased]
    rw [hall, herased, ← hall]
    exact h.faultless
  let parsed : Compilation := { read with declarations := some found }
  have hclassify : parsed.classify.1 = true := (classify_iff rfl).2 ⟨hfaultless, hnames ▸ h.names⟩
  have hshaped : parsed.classify = (true, parsed.classify.2) := Prod.ext hclassify rfl
  obtain ⟨hclassified, -⟩ := accepted_of_classify rfl hshaped
  obtain ⟨bound, hemit⟩ := Java.emit_of_emitted (emitted_of_erased herased h.emitted)
  have hafter : parsed.classify.2.emit =
      .ok (some units, { parsed.classify.2 with declarations := some bound }) := by
    simp only [emit, hclassified, Option.getD_some, hemit, ok_bind]
    rfl
  exact ⟨_, .intro hread (parse_of_declarations hparse) hshaped hafter⟩

end Compilation

/-- A source compiles to units exactly if these are the units of the declarations that it spells. -/
theorem compile_eq_ok_iff {source filename : String} {units : List JavaUnit} :
    compile source filename = .ok units ↔ ∃ decls, Compiles source.toList decls units := by
  constructor
  · intro h
    have hsettles : Compilation.Settles { source, filename } (compile source filename) :=
      Compilation.run_settles ⟨rfl, rfl⟩
    rw [h] at hsettles
    obtain ⟨-, hcompletes, -⟩ := hsettles
    exact Compilation.compiles_of_completes ⟨rfl, rfl⟩ hcompletes
  · rintro ⟨decls, h⟩
    obtain ⟨after, hcompletes⟩ :=
      Compilation.completes_of_compiles (c := { source, filename }) ⟨rfl, rfl⟩ h
    exact congrArg Prod.snd (Compilation.run_of_completes hcompletes)

end EoJava
