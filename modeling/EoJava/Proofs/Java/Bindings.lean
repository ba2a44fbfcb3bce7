import EoJava.Proofs.Java.Unbound
import Mathlib.Data.List.Forall2

/-!
# What an emission changes

An emission fills in the bindings of references and changes nothing else of a declaration
(`erased_declTexts`). What it gives for a declaration is followed by `Annotated.Gives`.
-/

namespace EoJava

namespace Annotated

variable {α β γ δ : Type}

/-- The result of a stage, if it succeeds, has a property. -/
def Gives (annotated : Annotated α β) (Good : β → Prop) : Prop :=
  ∀ value, annotated.result = .ok value → Good value

namespace Gives

variable {Good : β → Prop}

theorem done {value : β} (h : Good value) (node : α) : (Annotated.done node value).Gives Good := by
  rintro _ ⟨⟩
  exact h

theorem stop (node : α) (position : Position) (problem : Problem) :
    (Annotated.stop node position problem).Gives Good := by
  rintro _ ⟨⟩

theorem map {annotated : Annotated α β} (h : annotated.Gives Good) (rebuild : α → γ) {f : β → δ}
    {Better : δ → Prop} (hf : ∀ value, Good value → Better (f value)) :
    (annotated.map rebuild f).Gives Better := by
  obtain ⟨node, problem | value⟩ := annotated
  · rintro _ ⟨⟩
  · rintro _ ⟨⟩
    exact hf value (h value rfl)

/-- If each node gives a result that is good for it, a visit gives such results for all. -/
theorem visit {Good : α → β → Prop} {f : α → Annotated α β} {nodes : List α}
    (h : ∀ node ∈ nodes, (f node).Gives (Good node)) :
    (Annotated.visit f nodes).Gives (List.Forall₂ Good nodes) := by
  induction nodes with
  | nil => exact done .nil _
  | cons node nodes ih =>
      obtain ⟨hnode, hnodes⟩ := List.forall_mem_cons.1 h
      rw [Annotated.visit]
      rcases hfound : f node with ⟨found, problem | value⟩
      · rintro _ ⟨⟩
      · rw [hfound] at hnode
        exact (ih hnodes).map _ fun values hvalues => .cons (hnode value rfl) hvalues

theorem visitOption {Good : α → β → Prop} {f : α → Annotated α β} {node? : Option α}
    (h : ∀ node ∈ node?, (f node).Gives (Good node)) :
    (Annotated.visitOption f node?).Gives (Option.Rel Good node?) := by
  cases node? with
  | none => exact done .none _
  | some node => exact (h node rfl).map _ fun _ hgood => .some hgood

end Gives

/-- What a visit leaves of its nodes is, up to `erase`, what they were, if this holds for each. -/
theorem node_visit {ε : Type} {erase : α → ε} {f : α → Annotated α β}
    (h : ∀ node, erase (f node).node = erase node) (nodes : List α) :
    (Annotated.visit f nodes).node.map erase = nodes.map erase := by
  induction nodes with
  | nil => rfl
  | cons node nodes ih =>
      have hnode := h node
      rw [Annotated.visit]
      rcases hfound : f node with ⟨found, problem | value⟩
      · rw [hfound] at hnode
        simpa using hnode
      · rw [hfound] at hnode
        simp [Annotated.map, hnode, ih]

end Annotated

/-- The method that a member is, if it is one. -/
def Member.method? : Member → Option Method
  | .method m => some m
  | _ => none

namespace Java

/-! ## Bindings -/

theorem erased_constructorTexts (decl : Decl) :
    (constructorTexts decl).node.erased = decl.erased :=
  Decl.erased_congr (constructorTexts_fills decl).frame

/-- Where the shorter constructor delegates, the methods are as they were. -/
theorem methods_constructorTexts (decl : Decl) :
    (constructorTexts decl).node.methods = decl.methods := by
  have hselect : ∀ members : List Member, members.filterMap Member.method? =
      (members.map Member.method?).filterMap id := by
    intro members
    rw [List.filterMap_map]
    rfl
  simp only [constructorTexts]
  by_cases hdefaults : hasDefaults decl.stored
  · rw [if_pos hdefaults]
    have hmembers : (visitStored (slotText [] decl.stored) decl.members).node.map Member.method? =
        decl.members.map Member.method? := by
      refine Annotated.node_visit (fun member => ?_) decl.members
      rcases member with ⟨_ | _, slot⟩ | m <;> rfl
    show List.filterMap Member.method? _ = List.filterMap Member.method? _
    rw [hselect, hselect]
    exact congrArg (List.filterMap id) hmembers
  · rw [if_neg hdefaults]
    rfl

/-- The fields have the same names after it. -/
theorem fields_constructorTexts (decl : Decl) :
    (constructorTexts decl).node.stored.map (·.name) = decl.stored.map (·.name) := by
  rw [← fields_unbound, (constructorTexts_fills decl).frame, fields_unbound]

/-- An emission changes the bindings of a declaration only. -/
theorem erased_declTexts (decl : Decl) : (declTexts decl).node.erased = decl.erased :=
  Decl.erased_congr (declTexts_fills decl).frame

/-- An emission leaves a declaration where it is. -/
theorem position_declTexts (decl : Decl) : (declTexts decl).node.position = decl.position := by
  have hposition := congrArg Decl.position (declTexts_fills decl).frame
  exact hposition

end Java

end EoJava
