import EoJava.Java.Emission
import EoJava.Proofs.Breakdown

/-!
# Written units

What a declaration consists of is written in blocks that are closed again, so the text of its unit
is complete: a unit is written for every declaration and whatever its texts are
(`exists_unitOf`).
-/

namespace EoJava.Java

namespace Writer

/-- Lines are written one after the other in the block that is open. -/
theorem foldl_line (body : List String) (writer : Writer) :
    body.foldl line writer =
      { writer with lines := writer.lines ++ body.map (indentation writer.depth ++ ·) } := by
  induction body generalizing writer with
  | nil => simp
  | cons text body ih =>
      rw [List.foldl_cons, ih]
      simp [line]

/-- A block is its header, its lines one level deeper, and its end. -/
theorem block_eq (writer : Writer) (header : String) (body : List String) :
    writer.block header body = .ok { writer with
      lines := writer.lines ++ [indentation writer.depth ++ (header ++ " \x7b")] ++
        body.map (indentation (writer.depth + 1) ++ ·) ++
        [indentation writer.depth ++ "\x7d"] } := by
  rw [block, foldl_line]
  rfl

@[simp]
theorem depth_blank (writer : Writer) : writer.blank.depth = writer.depth := by
  unfold blank
  split
  · rfl
  · split <;> rfl

/-- A way of writing that closes the blocks it opens and no others. -/
def Balanced (write : Writer → Except Breakdown Writer) : Prop :=
  ∀ writer, ∃ after, write writer = .ok after ∧ after.depth = writer.depth

namespace Balanced

variable {write next : Writer → Except Breakdown Writer}

/-- Nothing is written. -/
theorem skip : Balanced Except.ok :=
  fun writer => ⟨writer, rfl, rfl⟩

/-- One part is written after another. -/
theorem bind (hwrite : Balanced write) (hnext : Balanced next) :
    Balanced fun writer => write writer >>= next := by
  intro writer
  obtain ⟨mid, hmid, hdepth⟩ := hwrite writer
  obtain ⟨after, hafter, hdepth'⟩ := hnext mid
  refine ⟨after, ?_, hdepth'.trans hdepth⟩
  show write writer >>= next = .ok after
  rw [hmid, ok_bind, hafter]

/-- A block is written after a blank line. -/
theorem block (header : String) (body : List String) :
    Balanced fun writer => writer.blank.block header body :=
  fun writer => ⟨_, block_eq writer.blank header body, depth_blank writer⟩

/-- Parts are written in order. -/
theorem foldlM {α : Type} {write : Writer → α → Except Breakdown Writer} (parts : List α)
    (h : ∀ part, Balanced (write · part)) : Balanced fun writer => parts.foldlM write writer := by
  induction parts with
  | nil => exact skip
  | cons part parts ih => exact (h part).bind ih

/-- A block is complete at its end if what is written in it closes its own blocks. -/
theorem exists_text (hwrite : Balanced write) (writer : Writer) (hdepth : writer.depth = 1) :
    ∃ text, (do
      let writer ← write writer
      let writer ← writer.closeBlock
      writer.text) = .ok text := by
  obtain ⟨after, hafter, hkept⟩ := hwrite writer
  have hone : after.depth = 1 := hkept.trans hdepth
  refine ⟨"\n".intercalate (after.lines ++ [indentation 0 ++ "\x7d"]) ++ "\n", ?_⟩
  rw [hafter, ok_bind]
  simp only [closeBlock, hone, ok_bind]
  rfl

end Balanced

end Writer

open Writer (Balanced)

theorem writeDelegation_balanced (modifier : String) (m : Method) (texts : MethodTexts) :
    Balanced (writeDelegation modifier m texts) := by
  unfold writeDelegation
  cases texts.delegation with
  | none => exact .skip
  | some args => exact .block _ _

theorem writeMethod_balanced (entry : Method × MethodTexts) :
    Balanced (writeMethod · entry) := by
  obtain ⟨m, texts⟩ := entry
  simp only [writeMethod]
  cases texts.body with
  | none => exact .skip
  | some body => exact .bind (.block _ _) (writeDelegation_balanced "public" m texts)

theorem writeConstructors_balanced (decl : Decl) (texts : DeclTexts) :
    Balanced (writeConstructors decl texts) := by
  unfold writeConstructors
  by_cases hstored : decl.stored.isEmpty
  · simp only [hstored, ↓reduceIte]
    exact .skip
  · simp only [hstored]
    cases texts.constructor with
    | none => exact .block _ _
    | some args => exact .bind (.block _ _) (.block _ _)

/-- A class is written for every declaration. -/
theorem exists_classUnit (decl : Decl) (texts : DeclTexts) :
    ∃ text, classUnit decl texts = .ok text := by
  have hmethods := Balanced.foldlM (decl.methods.zip texts.methods) writeMethod_balanced
  obtain ⟨text, htext⟩ := ((writeConstructors_balanced decl texts).bind hmethods).exists_text
    ((decl.stored.map fun slot =>
      "private final " ++ slot.typeName ++ " " ++ slot.name ++ ";").foldl Writer.line
      (({} : Writer).openBlock
        ("public final class " ++ decl.name ++ interfaceClause "implements" decl)))
    (by rw [Writer.foldl_line]; rfl)
  refine ⟨text, ?_⟩
  rw [← htext, bind_assoc]
  rfl

/-- An interface is written for every declaration. -/
theorem exists_interfaceUnit (decl : Decl) (texts : DeclTexts) :
    ∃ text, interfaceUnit decl texts = .ok text := by
  have hmethods : Balanced fun writer => (decl.methods.zip texts.methods).foldlM
      (fun writer pair => writeDelegation "default" pair.1 pair.2 writer) writer :=
    .foldlM _ fun pair => writeDelegation_balanced "default" pair.1 pair.2
  exact hmethods.exists_text _ (by rw [Writer.foldl_line]; rfl)

/-- The unit of a declaration has its name and its kind. -/
theorem exists_unitOf (decl : Decl) (texts : DeclTexts) :
    ∃ text, unitOf decl texts = .ok ⟨decl.name, unitKind decl, text⟩ := by
  unfold unitOf
  cases unitKind decl with
  | interfaceType =>
      obtain ⟨text, htext⟩ := exists_interfaceUnit decl texts
      refine ⟨text, ?_⟩
      simp only [htext, ok_bind]
      rfl
  | classType =>
      obtain ⟨text, htext⟩ := exists_classUnit decl texts
      refine ⟨text, ?_⟩
      simp only [htext, ok_bind]
      rfl

end EoJava.Java
