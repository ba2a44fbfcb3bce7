import EoJava.Text.Numeral
import Mathlib.Data.List.TakeWhile

/-!
# The form of numerals

A text is one numeral if it is an optional minus sign, digits, and an optional fraction
(`isNumeral_iff`). A numeral is read whole unless what follows it goes on with a digit or a point
(`take?_append`).
-/

namespace EoJava.Text

/-- What can be checked for each character of a list holds of every one. -/
theorem forall_mem_of_all {P : Char → Prop} [DecidablePred P] {cs : List Char}
    (h : cs.all fun c => decide (P c)) : ∀ c ∈ cs, P c := by
  intro c hc
  exact of_decide_eq_true (List.all_eq_true.1 h c hc)

section

variable {p : Char → Bool} {run rest : List Char}

/-- A run is taken up to the first character that is not of its sort. -/
theorem takeWhile_run (hrun : ∀ c ∈ run, p c) (hrest : ∀ c ∈ rest.head?, p c = false) :
    (run ++ rest).takeWhile p = run := by
  rw [List.takeWhile_append_of_pos hrun]
  cases rest with
  | nil => simp
  | cons c cs => simp [hrest c rfl]

theorem dropWhile_run (hrun : ∀ c ∈ run, p c) (hrest : ∀ c ∈ rest.head?, p c = false) :
    (run ++ rest).dropWhile p = rest := by
  rw [List.dropWhile_append_of_pos hrun]
  cases rest with
  | nil => simp
  | cons c cs => simp [hrest c rfl]

end

namespace Numeral

/-- A run of at least one digit. -/
def IsDigits (text : List Char) : Prop :=
  text ≠ [] ∧ ∀ c ∈ text, c.isDigit

/-- Nothing, or a point and digits. -/
def IsFraction (text : List Char) : Prop :=
  text = [] ∨ ∃ digits, text = '.' :: digits ∧ IsDigits digits

/-- What follows a numeral does not go on with it. -/
def Ends (rest : List Char) : Prop :=
  ∀ c ∈ rest.head?, c.isDigit = false ∧ c ≠ '.'

theorem ends_nil : Ends [] :=
  fun _ h => by cases h

/-- Digits and a fraction are taken whole. -/
theorem takeMagnitude?_append {whole fraction rest : List Char} (hwhole : IsDigits whole)
    (hfraction : IsFraction fraction) (hrest : Ends rest) :
    takeMagnitude? (whole ++ (fraction ++ rest)) = some (whole ++ fraction, rest) := by
  have hstop : ∀ c ∈ rest.head?, c.isDigit = false := fun c hc => (hrest c hc).1
  rcases hfraction with rfl | ⟨digits, rfl, hdigits⟩
  · simp only [List.nil_append, List.append_nil, takeMagnitude?, takeWhile_run hwhole.2 hstop,
      dropWhile_run hwhole.2 hstop, if_neg hwhole.1]
    cases rest with
    | nil => rfl
    | cons c cs =>
        split
        · next heq =>
            cases heq
            exact absurd rfl (hrest _ rfl).2
        · rfl
  · have hpoint : ∀ c ∈ ('.' :: (digits ++ rest)).head?, c.isDigit = false := by
      rintro c ⟨⟩
      rfl
    simp only [List.cons_append, takeMagnitude?, takeWhile_run hwhole.2 hpoint,
      dropWhile_run hwhole.2 hpoint, if_neg hwhole.1, takeWhile_run hdigits.2 hstop,
      dropWhile_run hdigits.2 hstop, if_neg hdigits.1]

/-- What is taken as a magnitude is digits and a fraction. -/
theorem exists_of_takeMagnitude? {text taken rest : List Char}
    (h : takeMagnitude? text = some (taken, rest)) :
    ∃ whole fraction, taken = whole ++ fraction ∧ IsDigits whole ∧ IsFraction fraction := by
  have hwhole : ∀ c ∈ text.takeWhile Char.isDigit, c.isDigit := fun c hc =>
    List.mem_takeWhile_imp hc
  simp only [takeMagnitude?] at h
  split at h
  · cases h
  · next hne =>
      split at h
      · next after _ =>
          split at h
          · cases h
            exact ⟨_, [], by simp, ⟨hne, hwhole⟩, .inl rfl⟩
          · next hdigits =>
              cases h
              exact ⟨_, _, rfl, ⟨hne, hwhole⟩, .inr ⟨_, rfl, hdigits, fun c hc =>
                List.mem_takeWhile_imp hc⟩⟩
      · cases h
        exact ⟨_, [], by simp, ⟨hne, hwhole⟩, .inl rfl⟩

/-- Digits do not start with a minus sign. -/
theorem take?_digits {whole rest : List Char} (hwhole : IsDigits whole) :
    take? (whole ++ rest) = takeMagnitude? (whole ++ rest) := by
  obtain ⟨hne, hdigits⟩ := hwhole
  obtain ⟨c, cs, rfl⟩ := List.exists_cons_of_ne_nil hne
  have hc : c ≠ '-' := by
    rintro rfl
    exact absurd (hdigits '-' (by simp)) (by decide)
  simp [take?, hc]

/-- What is taken as a numeral has the form of one. -/
theorem exists_of_take? {text taken rest : List Char} (h : take? text = some (taken, rest)) :
    ∃ sign whole fraction, taken = sign ++ (whole ++ fraction) ∧
      (sign = [] ∨ sign = ['-']) ∧ IsDigits whole ∧ IsFraction fraction := by
  unfold take? at h
  split at h
  · cases h
  · split at h
    · obtain ⟨⟨digits, after⟩, hdigits, heq⟩ := Option.map_eq_some_iff.1 h
      obtain ⟨whole, fraction, rfl, hwhole, hfraction⟩ := exists_of_takeMagnitude? hdigits
      cases heq
      exact ⟨['-'], whole, fraction, rfl, .inr rfl, hwhole, hfraction⟩
    · obtain ⟨whole, fraction, rfl, hwhole, hfraction⟩ := exists_of_takeMagnitude? h
      exact ⟨[], whole, fraction, rfl, .inl rfl, hwhole, hfraction⟩

/-- A text is one numeral if it has the form of one. -/
theorem isNumeral_iff {text : List Char} :
    isNumeral text ↔ ∃ sign whole fraction, text = sign ++ (whole ++ fraction) ∧
      (sign = [] ∨ sign = ['-']) ∧ IsDigits whole ∧ IsFraction fraction := by
  constructor
  · intro h
    unfold isNumeral at h
    split at h
    · next taken htake =>
        obtain ⟨rfl, -⟩ := append_of_take? htake
        rw [List.append_nil] at htake ⊢
        exact exists_of_take? htake
    · cases h
  · rintro ⟨_, whole, fraction, rfl, rfl | rfl, hwhole, hfraction⟩
    · have htake := takeMagnitude?_append hwhole hfraction ends_nil
      rw [List.append_nil] at htake
      rw [isNumeral, List.nil_append, take?_digits hwhole, htake]
    · have htake := takeMagnitude?_append hwhole hfraction ends_nil
      rw [List.append_nil] at htake
      simp [isNumeral, take?, htake]

/-- What is taken as a numeral is one. -/
theorem isNumeral_of_take? {text taken rest : List Char} (h : take? text = some (taken, rest)) :
    isNumeral taken :=
  isNumeral_iff.2 (exists_of_take? h)

/-- A numeral is read whole if what follows does not go on with it. -/
theorem take?_append {text rest : List Char} (h : isNumeral text) (hrest : Ends rest) :
    take? (text ++ rest) = some (text, rest) := by
  obtain ⟨_, whole, fraction, rfl, rfl | rfl, hwhole, hfraction⟩ := isNumeral_iff.1 h
  · rw [List.nil_append, List.append_assoc, take?_digits hwhole]
    exact takeMagnitude?_append hwhole hfraction hrest
  · simp [take?, takeMagnitude?_append hwhole hfraction hrest]

/-- What starts with neither a minus sign nor a digit is no numeral. -/
theorem take?_of_head {c : Char} {cs : List Char} (hminus : c ≠ '-') (hdigit : c.isDigit = false) :
    take? (c :: cs) = none := by
  simp [take?, takeMagnitude?, hminus, hdigit]

/-- A numeral starts with a minus sign or a digit. -/
theorem head_of_isNumeral {c : Char} {cs : List Char} (h : isNumeral (c :: cs)) :
    c = '-' ∨ c.isDigit := by
  obtain ⟨_, whole, fraction, heq, rfl | rfl, ⟨hne, hdigits⟩, -⟩ := isNumeral_iff.1 h
  · obtain ⟨d, ds, rfl⟩ := List.exists_cons_of_ne_nil hne
    cases heq
    exact .inr (hdigits c (by simp))
  · cases heq
    exact .inl rfl

theorem exists_cons_of_isNumeral {text : List Char} (h : isNumeral text) :
    ∃ c cs, text = c :: cs ∧ (c = '-' ∨ c.isDigit) := by
  cases text with
  | nil => cases h
  | cons c cs => exact ⟨c, cs, rfl, head_of_isNumeral h⟩

end Numeral

end EoJava.Text
