import EoJava.Proofs.Compilation.Run
import EoJava.Proofs.Java.Texts

/-!
# Emissions that are repeated

The units that declarations become, and whether they become units, do not depend on the bindings
that are there before. An emission fills in bindings and nothing else, and when it is repeated it
gives the same units and leaves the same bindings (`emit_repeats`).
-/

namespace EoJava

namespace Java

theorem unitOf_unbound (decl : Decl) : unitOf decl.unbound = unitOf decl := by
  funext texts
  rw [← unitOf_erased, decl.erased_unbound, unitOf_erased]

/-- The unit of a declaration is made after its references are bound, which does not count. -/
theorem emission_eq_map (decl : Decl) : emission decl = (declTexts decl).map id (unitOf decl) := by
  rw [emission, ← unitOf_unbound, (declTexts_fills decl).frame, unitOf_unbound]

theorem emission_fills : ∀ decl, Annotated.Fills Decl.unbound emission decl := by
  rw [funext emission_eq_map]
  exact Annotated.Fills.part (lens_whole _) (fun _ => declTexts_fills) (fun _ => rfl)
    unitOf_unbound

/-- Declarations whose visits have one result have one result when they are emitted. -/
theorem emit_of_visit {decls bound others : List Decl}
    {result : Except (Located Problem) (List JavaUnit)} (h : emit decls = .ok ⟨bound, result⟩)
    (hsame : (Annotated.visit emission others).result = (Annotated.visit emission decls).result) :
    emit others = .ok ⟨(Annotated.visit emission others).node, result⟩ := by
  have hvisit : ∀ nodes, Annotated.visit (fun decl => (declTexts decl).map id
      (unitOf (declTexts decl).node)) nodes = Annotated.visit emission nodes := fun _ => rfl
  simp only [emit, hvisit] at h ⊢
  rw [hsame]
  split at h
  · cases h
    rfl
  · obtain ⟨units, hunits, h⟩ := exists_of_bind_eq_ok h
    cases h
    rw [hunits]
    rfl

theorem node_of_emit {decls bound : List Decl}
    {result : Except (Located Problem) (List JavaUnit)} (h : emit decls = .ok ⟨bound, result⟩) :
    (Annotated.visit emission decls).node = bound := by
  have hsame := (emit_of_visit h rfl).symm.trans h
  cases hsame
  rfl

variable {decls bound : List Decl} {result : Except (Located Problem) (List JavaUnit)}

/-- Declarations that are emitted keep all but their bindings. -/
theorem unbound_of_emit (h : emit decls = .ok ⟨bound, result⟩) :
    bound.map Decl.unbound = decls.map Decl.unbound := by
  rw [← node_of_emit h]
  exact (Annotated.Fills.visit fun decl _ => emission_fills decl).frame

/-- What becomes of declarations does not depend on their bindings. -/
theorem emit_of_unbound (h : emit decls = .ok ⟨bound, result⟩) {others : List Decl}
    (hothers : others.map Decl.unbound = decls.map Decl.unbound) :
    ∃ left, emit others = .ok ⟨left, result⟩ :=
  ⟨_, emit_of_visit h (Annotated.Fills.congr
    (fun _ => Annotated.Fills.visit fun decl _ => emission_fills decl) hothers)⟩

/-- Declarations that are emitted again become the same, and their bindings stay. -/
theorem emit_again (h : emit decls = .ok ⟨bound, result⟩) : emit bound = .ok ⟨bound, result⟩ := by
  have hagain := (Annotated.Fills.visit fun decl (_ : decl ∈ decls) => emission_fills decl).again
  rw [node_of_emit h] at hagain
  rw [emit_of_visit h (congrArg _ hagain), hagain, node_of_emit h]

end Java

namespace Compilation

variable {c : Compilation}

/-- Compilations whose declarations differ in their bindings only. -/
def SameUnbound (c other : Compilation) : Prop :=
  c.declarations.map (List.map Decl.unbound) = other.declarations.map (List.map Decl.unbound)

theorem sameUnbound_getD {other : Compilation} (h : SameUnbound other c) :
    (other.declarations.getD []).map Decl.unbound = (c.declarations.getD []).map Decl.unbound := by
  have hlists := congrArg (Option.getD · (List.map Decl.unbound [])) h
  rwa [Option.getD_map, Option.getD_map] at hlists

/-- An emission leaves all but bindings as it was. It succeeds without a diagnostic, and when it is
repeated it gives the same units and changes nothing; or it fails without units, with one diagnostic
more. Whether it succeeds, and with which units, does not depend on the bindings before it. -/
theorem emit_repeats (c : Compilation) :
    ∃ units? bound, SameUnbound { c with declarations := bound } c ∧
      (∀ other, SameUnbound other c → ∃ after, other.emit = .ok (units?, after)) ∧
      ((∃ units, units? = some units ∧
          c.emit = .ok (some units, { c with declarations := bound }) ∧
          ({ c with declarations := bound } : Compilation).emit =
            .ok (some units, { c with declarations := bound })) ∨
        units? = none ∧
          ∃ d, c.emit = .ok (none, ({ c with declarations := bound } : Compilation).add d)) := by
  have hsame : ∀ {bound result}, Java.emit (c.declarations.getD []) = .ok ⟨bound, result⟩ →
      SameUnbound { c with declarations := c.declarations.map fun _ => bound } c := by
    intro bound result h
    have hunbound := Java.unbound_of_emit h
    cases hdecls : c.declarations with
    | none => simp [SameUnbound, hdecls]
    | some decls => simpa [SameUnbound, hdecls] using hunbound
  obtain ⟨bound, units, h⟩ | ⟨bound, problem, h, -⟩ := Java.emit_cases (c.declarations.getD [])
  · refine ⟨some units, _, hsame h, fun other hother => ?_, .inl ⟨units, rfl, emit_of_units h, ?_⟩⟩
    · obtain ⟨left, hleft⟩ := Java.emit_of_unbound h (sameUnbound_getD hother)
      exact ⟨_, emit_of_units hleft⟩
    · let again : Compilation := { c with declarations := c.declarations.map fun _ => bound }
      have hagain : Java.emit (again.declarations.getD []) = .ok ⟨bound, .ok units⟩ := by
        cases hdecls : c.declarations with
        | none => simpa [again, hdecls] using h
        | some decls => simpa [again, hdecls] using Java.emit_again h
      have hkept : { again with declarations := again.declarations.map fun _ => bound } =
          again := by
        simp [again, Function.comp_def]
      have hemitted := emit_of_units hagain
      rwa [hkept] at hemitted
  · refine ⟨none, _, hsame h, fun other hother => ?_, .inr ⟨rfl, _, emit_of_problem h⟩⟩
    obtain ⟨left, hleft⟩ := Java.emit_of_unbound h (sameUnbound_getD hother)
    exact ⟨_, emit_of_problem hleft⟩

end Compilation

end EoJava
