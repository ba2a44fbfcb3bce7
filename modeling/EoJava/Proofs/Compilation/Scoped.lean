import EoJava.Proofs.Compilation.Units
import EoJava.Proofs.Java.Scoping

/-!
# Compiled names

Every unit that a source compiles to uses names correctly: its tree is scoped, and the defaults of
its declaration use no slot that the shorter signature leaves out (`compile_scoped`).
-/

namespace EoJava

namespace Java

/-- A unit is that of a declaration, the tree that its text is read as is scoped, and the defaults
of the declaration are available where they are evaluated. -/
structure Resolves (decl : Decl) (unit : JavaUnit) : Prop where
  reads : Reads unit.text (outline decl)
  names : ∀ tree, Reads unit.text tree → tree.Scoped
  stored : Available decl.stored
  parameters : ∀ m ∈ decl.methods, Available m.parameters

/-- A unit resolves the names of its declaration, and of any other that differs in bindings only. -/
theorem Emitted.resolves {decl found : Decl} {unit : JavaUnit} (h : Emitted decl unit)
    (haccepted : decl.Accepted) (hspellable : ∀ t ∈ decl.terminals, t.Spellable)
    (herased : found.erased = decl.erased) : Resolves found unit := by
  have hreads : Reads unit.text (outline found) := outline_congr herased ▸ h.reads hspellable
  have hstored : found.stored.map Slot.erased = decl.stored.map Slot.erased := by
    rw [← Decl.stored_erased, herased, Decl.stored_erased]
  have hmethods : found.methods.map Method.erased = decl.methods.map Method.erased := by
    rw [← Decl.methods_erased, herased, Decl.methods_erased]
  obtain ⟨havailable, hparameters⟩ := h.available haccepted
  refine ⟨hreads, fun tree htree => ?_, (available_congr hstored).2 havailable, fun m hm => ?_⟩
  · exact hreads.unique htree ▸ outline_scoped found
  · have hmem : m.erased ∈ decl.methods.map Method.erased :=
      hmethods ▸ List.mem_map_of_mem hm
    obtain ⟨other, hother, heq⟩ := List.mem_map.1 hmem
    exact (available_congr (congrArg Method.parameters heq)).1 (hparameters other hother)

end Java

/-- Every unit of a source that compiles uses names correctly. In its text each bare name is a
formal parameter around it and each field that is read is declared in the same class, none where a
constructor calls another or in an interface; and no default of its declaration uses a slot that the
shorter signature leaves out. -/
theorem compile_scoped {source filename : String} {units : List JavaUnit}
    (h : compile source filename = .ok units) :
    ∃ after decls, ({ source, filename } : Compilation).run = (after, .ok units) ∧
      after.declarations = some decls ∧ List.Forall₂ Java.Resolves decls units := by
  obtain ⟨after, met, decls, bound, hrun, hproduces, hbound, herased⟩ :=
    Compilation.produces_of_compile h
  exact ⟨after, bound, hrun, hbound, hproduces.forall₂_of_erased herased
    fun decl found unit haccepted hspellable hemitted herased =>
      hemitted.resolves haccepted hspellable herased⟩

/-- A class with a shorter constructor and a shorter method, and defaults that construct objects or
use what comes before them. -/
theorem compile_scoped_defaults :
    let source := "object A:\n  T @x\n  T @y := f(g)\n  T m(T p, T q = p):\n    h(x, p, q)\n"
    ∃ units after decls, compile source "a.eo" = .ok units ∧
      ({ source, filename := "a.eo" } : Compilation).run = (after, .ok units) ∧
      after.declarations = some decls ∧ List.Forall₂ Java.Resolves decls units := by
  intro source
  have hok : (compile source "a.eo").isOk = true := by decide +kernel
  cases hunits : compile source "a.eo" with
  | error stop =>
      rw [hunits] at hok
      cases hok
  | ok units =>
      obtain ⟨after, decls, hrun, hdecls, hresolves⟩ := compile_scoped hunits
      exact ⟨units, after, decls, rfl, hrun, hdecls, hresolves⟩

end EoJava
