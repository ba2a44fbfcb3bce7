import EoJava.Proofs.Compilation.Run
import EoJava.Proofs.Shape.Erased

/-!
# What a classification decides

A classification succeeds exactly if all declarations are well shaped, and then each of them has its
kind. If not, it reports one diagnostic and stops before the first declaration that is not well
shaped: those before it have their kinds, and it and all later ones are as they were
(`classify_decides`).
-/

namespace EoJava

namespace Decl

/-- A declaration with nothing but methods without bodies. -/
def SignaturesOnly (decl : Decl) : Prop :=
  decl.stored = [] ∧ ∀ m ∈ decl.methods, m.body = none

/-- A declaration as it is found again with its kind: an interface exactly if it has nothing but
methods without bodies, and the same otherwise. -/
structure Kinded (decl found : Decl) : Prop where
  kind : found.kind = some .interfaceType ∧ decl.SignaturesOnly ∨
    found.kind = some .classType ∧ ¬decl.SignaturesOnly
  others : found = { decl with kind := found.kind }

theorem derivedKind_eq_interface_iff {decl : Decl} :
    decl.derivedKind = .interfaceType ↔ decl.SignaturesOnly := by
  unfold derivedKind SignaturesOnly
  rw [ite_eq_left_iff, Bool.and_eq_true, List.isEmpty_iff, List.all_eq_true]
  simp

theorem kinded_classified (decl : Decl) : decl.Kinded decl.classified := by
  refine ⟨?_, rfl⟩
  show some decl.derivedKind = _ ∧ _ ∨ some decl.derivedKind = _ ∧ _
  rw [← derivedKind_eq_interface_iff]
  cases decl.derivedKind <;> simp

theorem kinded_map_classified (decls : List Decl) :
    List.Forall₂ Kinded decls (decls.map classified) := by
  rw [List.forall₂_map_right_iff, List.forall₂_same]
  exact fun decl _ => kinded_classified decl

end Decl

namespace Shape

/-- A classification without a fault is one of well-shaped declarations. -/
theorem classify_iff_allWellShaped {decls : List Decl} :
    (classify decls).2 = none ↔ Decl.AllWellShaped decls := by
  simp only [classify_iff, Decl.fault?_eq_none_iff]
  exact ⟨fun ⟨heach, hnames⟩ => ⟨heach, hnames⟩, fun h => ⟨h.each, h.names⟩⟩

/-- The fault that ends a classification splits the declarations. -/
theorem classifyAfter_split {earlier decls shaped : List Decl} {fault : Located Problem}
    (h : classifyAfter earlier decls = (shaped, some fault)) :
    ∃ before decl later, decls = before ++ decl :: later ∧
      shaped = before.map Decl.classified ++ decl :: later ∧
      (classifyAfter earlier before).2 = none ∧
      (nameFault? (earlier ++ before) decl <|> decl.fault?) = some fault := by
  induction decls generalizing earlier shaped with
  | nil => cases h
  | cons decl decls ih =>
      rw [classifyAfter] at h
      cases hfault : nameFault? earlier decl <|> decl.fault? with
      | some found =>
          rw [hfault] at h
          cases h
          exact ⟨[], decl, decls, rfl, rfl, rfl, by rwa [List.append_nil]⟩
      | none =>
          rw [hfault] at h
          rcases hrest : classifyAfter (earlier ++ [decl]) decls with ⟨rest, fault?⟩
          simp only [hrest] at h
          cases h
          obtain ⟨before, next, later, rfl, rfl, hbefore, hnext⟩ := ih hrest
          refine ⟨decl :: before, next, later, rfl, rfl, ?_, ?_⟩
          · rw [classifyAfter, hfault]
            exact hbefore
          · rwa [List.append_assoc, List.singleton_append] at hnext

/-- A classification with a fault stops at the first declaration that is not well shaped together
with those before it. -/
theorem classify_split {decls shaped : List Decl} {fault : Located Problem}
    (h : classify decls = (shaped, some fault)) :
    ∃ before decl later, decls = before ++ decl :: later ∧
      shaped = before.map Decl.classified ++ decl :: later ∧
      Decl.AllWellShaped before ∧ ¬Decl.AllWellShaped (before ++ [decl]) := by
  obtain ⟨before, decl, later, rfl, rfl, hbefore, hfault⟩ := classifyAfter_split h
  refine ⟨before, decl, later, rfl, rfl, classify_iff_allWellShaped.1 hbefore, fun hall => ?_⟩
  have hrules : decl.fault? = none := Decl.fault?_eq_none_iff.2 (hall.each decl (by simp))
  have hname : nameFault? before decl = none := by
    have hnodup := hall.names
    rw [List.map_append, List.nodup_append] at hnodup
    exact nameFault?_eq_none_iff.2 fun hmem => hnodup.2.2 _ hmem _ (by simp) rfl
  rw [List.nil_append, hname, hrules] at hfault
  cases hfault

end Shape

namespace Compilation

/-- A classification succeeds exactly if the declarations are well shaped. If so, it only gives
each its kind. If not, it gives the declarations before the first fault their kinds and reports one
diagnostic. -/
theorem classify_decides (c : Compilation) :
    (c.classify.1 = true ↔ Decl.AllWellShaped (c.declarations.getD [])) ∧
      ((∃ kinded, List.Forall₂ Decl.Kinded (c.declarations.getD []) kinded ∧
        c.classify = (true, { c with declarations := c.declarations.map fun _ => kinded })) ∨
      ∃ before decl later kinded diagnostic, c.declarations = some (before ++ decl :: later) ∧
        Decl.AllWellShaped before ∧ ¬Decl.AllWellShaped (before ++ [decl]) ∧
        List.Forall₂ Decl.Kinded before kinded ∧ diagnostic.code.stage = .classify ∧
        c.classify =
          (false, { c with declarations := some (kinded ++ decl :: later) }.add diagnostic)) := by
  rw [← Shape.classify_iff_allWellShaped]
  rcases hshaped : Shape.classify (c.declarations.getD []) with ⟨shaped, fault?⟩
  cases fault? with
  | none =>
      have hclassify : c.classify =
          (true, { c with declarations := c.declarations.map fun _ => shaped }) := by
        simp only [classify, hshaped]
      obtain ⟨rfl, -⟩ := Shape.classify_eq hshaped
      exact ⟨by simp [hclassify], .inl ⟨_, Decl.kinded_map_classified _, hclassify⟩⟩
  | some fault =>
      have hclassify : c.classify =
          (false, { c with declarations := c.declarations.map fun _ => shaped }.add
            (.ofProblem fault)) := by
        simp only [classify, hshaped]
        rfl
      have hstage := Shape.stage_of_classify (congrArg Prod.snd hshaped)
      obtain ⟨before, decl, later, hdecls, rfl, hbefore, hfirst⟩ := Shape.classify_split hshaped
      -- Without declarations there is nothing to find a fault in.
      have hsome : c.declarations = some (before ++ decl :: later) := by
        cases hdeclarations : c.declarations with
        | none => simp [hdeclarations] at hdecls
        | some decls => simpa [hdeclarations] using hdecls
      refine ⟨by simp [hclassify], .inr ⟨before, decl, later, _, .ofProblem fault, hsome, hbefore,
        hfirst, Decl.kinded_map_classified before, hstage, ?_⟩⟩
      rw [hclassify, hsome]
      rfl

end Compilation

end EoJava
