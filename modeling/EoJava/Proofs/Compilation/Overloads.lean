import EoJava.Proofs.Compilation.Units
import EoJava.Proofs.Java.Overloads
import EoJava.Proofs.Java.Texts
import EoJava.Proofs.Shape.Erased

/-!
# Compiled overloads

In every unit of a source that compiles, slots with a default give a constructor or a method two
overloads, and the call in the shorter one means the full one (`compile_overloads`).
-/

namespace EoJava

/-- In every unit of a source that compiles, a constructor or a method has one signature, or two if
some slot has a default: the full one, and one with the slots that have none. No two constructors
and no two methods share their name and the number of their parameters. So what the shorter
signature calls, with the name of each slot or with its compiled default, is the full one. -/
theorem compile_overloads {source filename : String} {units : List JavaUnit}
    (h : compile source filename = .ok units) :
    ∃ after decls, ({ source, filename } : Compilation).run = (after, .ok units) ∧
      after.declarations = some decls ∧
      List.Forall₂ (fun decl unit => ∃ tree, Java.Reads unit.text tree ∧ Java.Delegates decl tree)
        decls units := by
  obtain ⟨after, met, decls, bound, hrun, hproduces, hbound, herased⟩ :=
    Compilation.produces_of_compile h
  refine ⟨after, bound, hrun, hbound, hproduces.forall₂_of_erased herased
    fun decl found unit haccepted hspellable hemitted herased => ?_⟩
  have hspelled : ∀ t ∈ found.terminals, t.Spellable := by
    rwa [← found.terminals_erased, herased, decl.terminals_erased]
  have hunit : Java.Emitted found unit := hemitted.congr herased
  exact ⟨Java.outline found, hunit.reads hspelled,
    hunit.delegates (haccepted.congr herased) hspelled⟩

/-- An interface with a `default` method, and a class whose constructor and whose method have
defaults. -/
theorem compile_overloads_defaults :
    let source := "object I:\n  T m(T p, T q = f(p))\n\n" ++
      "object A as I:\n  T @x\n  T @y := g\n  T m(T p, T q = x):\n    h(p, q, y)\n"
    ∃ units after decls, compile source "a.eo" = .ok units ∧
      ({ source, filename := "a.eo" } : Compilation).run = (after, .ok units) ∧
      after.declarations = some decls ∧
      List.Forall₂ (fun decl unit => ∃ tree, Java.Reads unit.text tree ∧ Java.Delegates decl tree)
        decls units := by
  intro source
  have hok : (compile source "a.eo").isOk = true := by decide +kernel
  cases hunits : compile source "a.eo" with
  | error stop =>
      rw [hunits] at hok
      cases hok
  | ok units =>
      obtain ⟨after, decls, hrun, hdecls, hdelegates⟩ := compile_overloads hunits
      exact ⟨units, after, decls, rfl, hrun, hdecls, hdelegates⟩

end EoJava
