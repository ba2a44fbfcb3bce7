import EoJava.Java.Emission
import EoJava.Proofs.Shape.Faults
import EoJava.Proofs.Shape.WellShaped

/-!
# Accepted declarations

What the classification has made sure of: the members of an accepted declaration have distinct
names, its defaults stand last in their lists, and its methods have bodies exactly if it is a class.
-/

namespace EoJava

/-- A declaration with the kind that its members give it. -/
def Decl.classified (decl : Decl) : Decl :=
  { decl with kind := some decl.derivedKind }

/-- A declaration that was classified and breaks no rule. -/
structure Decl.Accepted (decl : Decl) : Prop where
  kind : decl.kind = some decl.derivedKind
  fault : decl.fault? = none

namespace Shape

theorem classifyAfter_eq {earlier decls shaped : List Decl}
    (h : classifyAfter earlier decls = (shaped, none)) :
    shaped = decls.map Decl.classified ∧ ∀ decl ∈ decls, decl.fault? = none := by
  induction decls generalizing earlier shaped with
  | nil =>
      cases h
      exact ⟨rfl, List.forall_mem_nil _⟩
  | cons decl decls ih =>
      rw [classifyAfter] at h
      cases hfault : nameFault? earlier decl <|> decl.fault? with
      | some fault =>
          rw [hfault] at h
          cases h
      | none =>
          rw [hfault] at h
          rcases hrest : classifyAfter (earlier ++ [decl]) decls with ⟨rest, fault?⟩
          simp only [hrest] at h
          cases h
          obtain ⟨rfl, hnone⟩ := ih hrest
          exact ⟨rfl, List.forall_mem_cons.2 ⟨(orElse_eq_none_iff.1 hfault).2, hnone⟩⟩

/-- A classification without a fault gives every declaration its kind. -/
theorem classify_eq {decls shaped : List Decl} (h : classify decls = (shaped, none)) :
    shaped = decls.map Decl.classified ∧ ∀ decl ∈ shaped, decl.Accepted := by
  obtain ⟨rfl, hnone⟩ := classifyAfter_eq h
  refine ⟨rfl, fun decl hdecl => ?_⟩
  obtain ⟨decl, hmem, rfl⟩ := List.mem_map.1 hdecl
  exact ⟨rfl, hnone decl hmem⟩

end Shape

/-- If the slots without a default come first, all from the first default on have one. -/
theorem DefaultsLast.defaulted {slots : List Slot} (h : DefaultsLast slots) :
    ∀ slot ∈ Java.defaulted slots, slot.default?.isSome := by
  induction slots with
  | nil => exact List.forall_mem_nil _
  | cons slot slots ih =>
      obtain ⟨hlater, hslots⟩ := List.pairwise_cons.1 h
      obtain ⟨position, typeName, slotName, _ | e⟩ := slot
      · exact ih hslots
      · exact List.forall_mem_cons.2 ⟨rfl, fun later hmem => hlater later hmem rfl⟩

namespace Decl.Accepted

variable {decl : Decl}

/-- The names of the methods are among those of the members, in order. -/
theorem methods_sublist (decl : Decl) :
    (decl.methods.map (·.name)).Sublist (decl.members.map Member.name) := by
  unfold Decl.methods
  induction decl.members with
  | nil => exact .slnil
  | cons member members ih =>
      rcases member with ⟨stored, slot⟩ | m
      · exact ih.cons _
      · exact ih.cons_cons _

/-- An accepted declaration is well shaped. -/
theorem wellShaped (h : decl.Accepted) : decl.WellShaped :=
  Decl.fault?_eq_none_iff.1 h.fault

/-- Methods have distinct names. -/
theorem methods_nodup (h : decl.Accepted) : (decl.methods.map (·.name)).Nodup :=
  h.wellShaped.members.sublist (methods_sublist decl)

/-- The defaults of stored attributes stand last. -/
theorem defaulted_stored (h : decl.Accepted) :
    ∀ slot ∈ Java.defaulted decl.stored, slot.default?.isSome :=
  h.wellShaped.storedDefaults.defaulted

/-- The defaults of the parameters of a method stand last. -/
theorem defaulted_parameters (h : decl.Accepted) :
    ∀ m ∈ decl.methods, ∀ slot ∈ Java.defaulted m.parameters, slot.default?.isSome :=
  fun m hm => (h.wellShaped.parameterDefaults m hm).defaulted

theorem unitKind_eq (h : decl.Accepted) : Java.unitKind decl = decl.derivedKind := by
  rw [Java.unitKind, h.kind, Option.getD_some]

/-- An interface stores nothing, and its methods have no body. -/
theorem interface_cases (h : decl.Accepted) (hkind : Java.unitKind decl = .interfaceType) :
    decl.stored = [] ∧ ∀ m ∈ decl.methods, m.body = none := by
  rw [h.unitKind_eq, Decl.derivedKind] at hkind
  split at hkind
  · next hinterface =>
      rw [Bool.and_eq_true, List.isEmpty_iff, List.all_eq_true] at hinterface
      exact ⟨hinterface.1, fun m hm => Option.isNone_iff_eq_none.1 (hinterface.2 m hm)⟩
  · cases hkind

/-- Every method of a class has a body. -/
theorem class_bodies (h : decl.Accepted) (hkind : Java.unitKind decl = .classType) :
    ∀ m ∈ decl.methods, m.body.isSome := by
  intro m hm
  refine Option.isSome_iff_ne_none.2 fun hbody => ?_
  obtain ⟨hstored, hbodies⟩ := h.wellShaped.bodies m hm hbody
  rw [h.unitKind_eq, Decl.derivedKind, if_pos] at hkind
  · cases hkind
  · simpa [hstored] using hbodies

end Decl.Accepted

end EoJava
