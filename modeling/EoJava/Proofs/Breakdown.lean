import EoJava.Diagnostic.Problem
import Mathlib.Data.List.Forall2

/-!
# Without a breakdown

What a source can cause is reported as a problem, and a breakdown is what no source causes. Steps
that may break down are followed by showing what each of them gives: `Builds built value` says that
a step gives a value, and lists and options of such steps give lists and options of values.
-/

namespace EoJava

/-- A step gives a value and does not break down. -/
def Builds {α : Type} (built : Except Breakdown α) (value : α) : Prop :=
  built = .ok value

section

variable {α β ε : Type}

/-- A step after one that succeeds. -/
@[simp]
theorem ok_bind (a : α) (next : α → Except ε β) : (Except.ok a >>= next) = next a := rfl

/-- No step is taken after one that fails. -/
@[simp]
theorem error_bind (e : ε) (next : α → Except ε β) : (Except.error e >>= next) = .error e := rfl

/-- A step and one after it succeed if both do. -/
theorem exists_of_bind_eq_ok {first : Except ε α} {next : α → Except ε β} {b : β}
    (h : first >>= next = .ok b) : ∃ a, first = .ok a ∧ next a = .ok b := by
  cases first with
  | error e => cases h
  | ok a => exact ⟨a, rfl, h⟩

/-- An error under another name is no success. -/
theorem mapError_eq_ok {step : Except ε α} {f : ε → β} {a : α} :
    step.mapError f = .ok a ↔ step = .ok a := by
  cases step <;> simp [Except.mapError]

/-- An error stays the same whatever is made of successes. -/
theorem map_eq_error {step : Except ε α} {f : α → β} {e : ε} :
    step.map f = .error e ↔ step = .error e := by
  cases step <;> simp [Except.map]

theorem mapM_builds {f : β → Except Breakdown α} {bs : List β} {values : List α}
    (h : List.Forall₂ (fun b value => Builds (f b) value) bs values) :
    Builds (bs.mapM f) values := by
  induction h with
  | nil => rfl
  | cons hfirst hothers ih =>
      rw [Builds] at hfirst ih ⊢
      rw [List.mapM_cons, hfirst, ih]
      rfl

/-- If every step gives a value, there is a list of their values. -/
theorem exists_builds {steps : List (Except Breakdown α)}
    (h : ∀ step ∈ steps, ∃ value, Builds step value) : ∃ values, Builds (steps.mapM id) values := by
  induction steps with
  | nil => exact ⟨[], rfl⟩
  | cons step steps ih =>
      obtain ⟨⟨value, hvalue⟩, hothers⟩ := List.forall_mem_cons.1 h
      obtain ⟨values, hvalues⟩ := ih hothers
      refine ⟨value :: values, ?_⟩
      rw [Builds] at hvalue hvalues ⊢
      rw [List.mapM_cons, hvalues, id, hvalue]
      rfl

theorem mapM?_builds {built? : Option (Except Breakdown α)} {value? : Option α}
    (h : Option.Rel Builds built? value?) : Builds (built?.mapM id) value? := by
  cases h with
  | none => rfl
  | some h =>
      rw [Builds] at h
      rw [h]
      rfl

end

end EoJava
