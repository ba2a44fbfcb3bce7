import EoJava.Proofs.Compilation.Run
import EoJava.Proofs.Java.Units
import EoJava.Proofs.Shape.Accepted

/-!
# Units of a source

A compilation that gives units has read its source into lexemes, these into declarations that it
accepts, and each of these has become a unit (`produces_of_completes`).
-/

namespace EoJava

open Grammar (Shallow)

namespace Compilation

variable {c read parsed shaped after : Compilation} {decls : List Decl} {units : List JavaUnit}

/-- The units of a compilation come from declarations that were accepted, and these from the lexemes
of the source. -/
structure Produces (c : Compilation) (met : List (Located Lexeme)) (decls : List Decl)
    (units : List JavaUnit) : Prop where
  read : Scan.source c.source.toList = ⟨met, .ok ()⟩
  spelled : met.map (·.value.terminal) = Decl.programTerminals decls
  accepted : ∀ decl ∈ decls, decl.Accepted
  spellable : ∀ decl ∈ decls, ∀ t ∈ decl.terminals, t.Spellable
  emitted : List.Forall₂ Java.Emitted decls units

/-- A source that is tokenized is read to its end. -/
theorem source_of_tokenize (h : c.tokenize = (true, read)) :
    ∃ met, Scan.source c.source.toList = ⟨met, .ok ()⟩ := by
  rcases hsource : Scan.source c.source.toList with ⟨met, problem | ⟨⟩⟩
  · simp [tokenize, hsource, report, add, hasErrors, errors_eq] at h
  · exact ⟨met, rfl⟩

/-- Declarations that are parsed are fresh and spell the tokens, in which few enough parentheses are
open. -/
theorem declarations_of_parse {us : List Grammar.Terminal}
    (h : Grammar.Carried c.strings c.tokens us) (hparsed : c.parse = .ok (true, parsed)) :
    Shallow (c.tokens.toList.map (·.kind)) ∧
      ∃ decls, parsed = { c with declarations := some decls } ∧ (∀ decl ∈ decls, decl.Fresh) ∧
        Decl.programTerminals decls = us ++ [.endOfInput] := by
  by_cases hshallow : Shallow (c.tokens.toList.map (·.kind))
  · obtain ⟨decls, hparse, -, hdecls, hspelled⟩ | ⟨id, detail, hparse, -, hid, -⟩ :=
      h.parse_cases hshallow
    · rw [parse_of_declarations hparse] at hparsed
      cases hparsed
      exact ⟨hshallow, decls, rfl, hdecls, hspelled⟩
    · rw [parse_of_refusal hparse hid] at hparsed
      cases hparsed
  · obtain ⟨id, hparse, -, hid⟩ := Grammar.parse_of_not_shallow c.strings hshallow
    rw [parse_of_refusal hparse hid] at hparsed
    cases hparsed

/-- A source that is tokenized and parsed spells the declarations that are stored. -/
theorem declarations_of_tokenize (hfresh : c.Fresh) (hread : c.tokenize = (true, read))
    (hparsed : read.parse = .ok (true, parsed)) :
    ∃ met decls, Scan.source c.source.toList = ⟨met, .ok ()⟩ ∧
      met.map (·.value.terminal) = Decl.programTerminals decls ∧
      (∀ t ∈ Decl.programTerminals decls, t.Spellable) ∧
      Shallow ((Decl.programTerminals decls).map (·.kind)) ∧ (∀ decl ∈ decls, decl.Fresh) ∧
      parsed = { read with declarations := some decls } := by
  obtain ⟨met, hmet⟩ := source_of_tokenize hread
  obtain ⟨found, us, htokenize, -, hcarried, hus, -⟩ := tokenize_of_source hfresh hmet
  cases hread.symm.trans htokenize
  obtain ⟨hshallow, decls, hstored, hdecls, hspelled⟩ := declarations_of_parse hcarried hparsed
  rw [hcarried.map_kind, ← hspelled] at hshallow
  refine ⟨met, decls, hmet, hus.trans hspelled.symm, fun t ht => ?_, hshallow, hdecls, hstored⟩
  rw [hspelled] at ht
  rcases List.mem_append.1 ht with ht | ht
  · exact (hcarried.legible t ht).1.spellable
  · rw [List.mem_singleton.1 ht]
    trivial

/-- A classification that succeeds accepts all declarations. -/
theorem accepted_of_classify (hdecls : parsed.declarations = some decls)
    (h : parsed.classify = (true, shaped)) :
    shaped.declarations = some (decls.map Decl.classified) ∧
      ∀ decl ∈ decls.map Decl.classified, decl.Accepted := by
  rcases hclassify : Shape.classify decls with ⟨found, fault?⟩
  simp only [classify, hdecls, Option.getD_some, hclassify] at h
  cases fault? with
  | some fault => cases h
  | none =>
      cases h
      obtain ⟨rfl, haccepted⟩ := Shape.classify_eq hclassify
      exact ⟨rfl, haccepted⟩

/-- An emission that succeeds makes a unit of each declaration, and binds references only. -/
theorem emitted_of_emit (hdecls : shaped.declarations = some decls)
    (h : shaped.emit = .ok (some units, after)) :
    List.Forall₂ Java.Emitted decls units ∧
      ∃ bound, after.declarations = some bound ∧
        bound.map Decl.erased = decls.map Decl.erased := by
  simp only [emit, hdecls, Option.getD_some] at h
  obtain ⟨⟨bound, problem | found⟩, hemitted, h⟩ := exists_of_bind_eq_ok h
  · cases h
  · cases h
    obtain ⟨hunits, herased⟩ := Java.emitted_of_emit hemitted
    exact ⟨hunits, bound, rfl, herased⟩

/-- The units of a fresh compilation that completes come from accepted declarations that its source
spells. What is left at the end are these declarations, with their references bound. -/
theorem produces_of_completes (hfresh : c.Fresh) (h : c.Completes after units) :
    ∃ met decls bound, c.Produces met decls units ∧ after.declarations = some bound ∧
      bound.map Decl.erased = decls.map Decl.erased := by
  obtain ⟨hread, hparsed, hshaped, hafter⟩ := h
  obtain ⟨met, decls, hmet, hspelled, hspellable, -, -, rfl⟩ :=
    declarations_of_tokenize hfresh hread hparsed
  obtain ⟨hdecls, haccepted⟩ := accepted_of_classify rfl hshaped
  obtain ⟨hemitted, bound, hbound, herased⟩ := emitted_of_emit hdecls hafter
  -- A classification changes kinds only, which are not spelled.
  have hterminals :
      Decl.programTerminals (decls.map Decl.classified) = Decl.programTerminals decls := by
    rw [Decl.programTerminals, List.flatMap_map]
    rfl
  refine ⟨met, _, bound, ⟨hmet, hspelled.trans hterminals.symm, haccepted, ?_, hemitted⟩, hbound,
    herased⟩
  intro decl hdecl t ht
  rw [← hterminals] at hspellable
  exact hspellable t (List.mem_append_left _ (List.mem_flatMap.2 ⟨decl, hdecl, ht⟩))

/-- What holds of every unit and of every declaration that differs in bindings only from the one
that became this unit holds of those at the end. -/
theorem Produces.forall₂_of_erased {met : List (Located Lexeme)} {bound : List Decl}
    {P : Decl → JavaUnit → Prop} (h : c.Produces met decls units)
    (herased : bound.map Decl.erased = decls.map Decl.erased)
    (hP : ∀ decl found unit, decl.Accepted → (∀ t ∈ decl.terminals, t.Spellable) →
      Java.Emitted decl unit → found.erased = decl.erased → P found unit) :
    List.Forall₂ P bound units := by
  have hunits : List.Forall₂ (fun decl unit => decl.Accepted ∧
      (∀ t ∈ decl.terminals, t.Spellable) ∧ Java.Emitted decl unit) decls units :=
    (List.forall₂_and_left _ _).2
      ⟨h.accepted, (List.forall₂_and_left _ _).2 ⟨h.spellable, h.emitted⟩⟩
  have hbound : List.Forall₂ (fun found decl => found.erased = decl.erased) bound decls := by
    rw [← List.forall₂_eq_eq_eq] at herased
    exact List.forall₂_map_right_iff.1 (List.forall₂_map_left_iff.1 herased)
  refine Java.forall₂_trans (fun found decl unit heq hunit => ?_) hbound hunits
  exact hP decl found unit hunit.1 hunit.2.1 hunit.2.2 heq

/-- What a source compiles to is what its fresh compilation produces. -/
theorem produces_of_compile {source filename : String} (h : compile source filename = .ok units) :
    ∃ after met decls bound, ({ source, filename } : Compilation).run = (after, .ok units) ∧
      ({ source, filename } : Compilation).Produces met decls units ∧
      after.declarations = some bound ∧ bound.map Decl.erased = decls.map Decl.erased := by
  have hsettles : Compilation.Settles { source, filename } (compile source filename) :=
    run_settles ⟨rfl, rfl⟩
  rw [h] at hsettles
  obtain ⟨hrun, hcompletes, -⟩ := hsettles
  obtain ⟨met, decls, bound, hproduces, hbound, herased⟩ :=
    produces_of_completes ⟨rfl, rfl⟩ hcompletes
  exact ⟨_, met, decls, bound, hrun, hproduces, hbound, herased⟩

end Compilation

end EoJava
