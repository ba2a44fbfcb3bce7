import EoJava.Proofs.Compilation.Units
import EoJava.Proofs.Java.Formatted

/-!
# Compiled texts

Whatever stands in the strings of a source, the texts of its units are formatted: their lines show
which blocks are open (`compile_formatted`).
-/

namespace EoJava

/-- No source makes the writing of units break down, and every unit of a source that compiles is
formatted. -/
theorem compile_formatted (source filename : String) :
    (∀ breakdown, compile source filename ≠ .error (.broken breakdown)) ∧
      ∀ units, compile source filename = .ok units → ∀ unit ∈ units, Java.Formatted unit.text := by
  refine ⟨fun breakdown hbroken => ?_, fun units hunits unit hunit => ?_⟩
  · have hsettles := (compile_settles filename).1 source
    rw [hbroken] at hsettles
    cases hsettles
  · obtain ⟨after, met, decls, bound, -, hproduces, -, -⟩ := Compilation.produces_of_compile hunits
    have hemitted := (List.forall₂_and_left _ _).2 ⟨hproduces.spellable, hproduces.emitted⟩
    have hformatted := hemitted.imp fun decl unit h => h.2.formatted h.1
    exact Java.forall_of_forall₂ hformatted.flip unit hunit

/-- Strings that look like the ends and the beginnings of blocks. -/
theorem compile_formatted_braces :
    let source := "object A:\n  T @x\n  T @y := \"\x7d \x7b\"\n" ++
      "  T m(T p, T q = \" \x7b\"):\n    \"\x7d\"\n" ++
      "object I:\n  T n(T p = \"\\\"\x7d \x7b\")\n  T o()\n"
    ∃ units, compile source "a.eo" = .ok units ∧
      units.map (·.kind) = [.classType, .interfaceType] ∧
      ∀ unit ∈ units, Java.Formatted unit.text := by
  intro source
  have hkinds : (compile source "a.eo").toOption.map (List.map (·.kind)) =
      some [.classType, .interfaceType] := by decide +kernel
  cases hunits : compile source "a.eo" with
  | error stop =>
      rw [hunits] at hkinds
      cases hkinds
  | ok units =>
      rw [hunits] at hkinds
      exact ⟨units, rfl, Option.some.inj hkinds, (compile_formatted source "a.eo").2 units hunits⟩

end EoJava
