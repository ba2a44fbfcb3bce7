/-!
# Numerals

A numeral is a run of decimal digits with an optional minus sign before it and an optional fraction
after it: a point and at least one digit. `take?` reads the longest one at the front of a text.
-/

namespace EoJava.Text.Numeral

/-- The longest run of digits with an optional fraction at the front of a text, and what follows
it. -/
def takeMagnitude? (text : List Char) : Option (List Char × List Char) :=
  let whole := text.takeWhile Char.isDigit
  if whole = [] then none
  else
    match text.dropWhile Char.isDigit with
    | '.' :: after =>
      let fraction := after.takeWhile Char.isDigit
      if fraction = [] then some (whole, '.' :: after)
      else some (whole ++ '.' :: fraction, after.dropWhile Char.isDigit)
    | rest => some (whole, rest)

/-- The longest numeral at the front of a text and what follows it. -/
def take? : List Char → Option (List Char × List Char)
  | [] => none
  | c :: cs =>
    if c = '-' then (takeMagnitude? cs).map fun (taken, rest) => ('-' :: taken, rest)
    else takeMagnitude? (c :: cs)

/-- A magnitude is taken off the front, and it is not empty. -/
theorem append_of_takeMagnitude? {text taken rest : List Char}
    (h : takeMagnitude? text = some (taken, rest)) : taken ++ rest = text ∧ taken ≠ [] := by
  have whole := List.takeWhile_append_dropWhile (p := Char.isDigit) (l := text)
  simp only [takeMagnitude?] at h
  split at h
  · simp at h
  · next nonempty =>
    split at h
    · next after left =>
      have fraction := List.takeWhile_append_dropWhile (p := Char.isDigit) (l := after)
      rw [left] at whole
      split at h
      · simp only [Option.some.injEq, Prod.mk.injEq] at h
        rw [← h.1, ← h.2]
        exact ⟨whole, nonempty⟩
      · simp only [Option.some.injEq, Prod.mk.injEq] at h
        rw [← h.1, ← h.2]
        refine ⟨?_, by simp⟩
        rw [List.append_assoc, List.cons_append, fraction, whole]
    · simp only [Option.some.injEq, Prod.mk.injEq] at h
      rw [← h.1, ← h.2]
      exact ⟨whole, nonempty⟩

/-- A numeral is taken off the front, and it is not empty. -/
theorem append_of_take? {text taken rest : List Char} (h : take? text = some (taken, rest)) :
    taken ++ rest = text ∧ taken ≠ [] := by
  unfold take? at h
  split at h
  · simp at h
  · next c cs =>
    split at h
    · next sign =>
      obtain ⟨⟨digits, after⟩, hd, he⟩ := Option.map_eq_some_iff.1 h
      obtain ⟨rfl, rfl⟩ := Prod.mk.inj he
      simp [sign, (append_of_takeMagnitude? hd).1]
    · exact append_of_takeMagnitude? h

/-- The whole text is one numeral. -/
def isNumeral (text : List Char) : Bool :=
  match take? text with
  | some (_, []) => true
  | _ => false

/-- The number that a run of decimal digits denotes. -/
def natValue (digits : List Char) : Nat :=
  digits.foldl (fun value c => value * 10 + (c.toNat - '0'.toNat)) 0

/-- The number that a numeral without a fraction denotes. -/
def intValue : List Char → Int
  | '-' :: digits => -(natValue digits : Int)
  | digits => natValue digits

end EoJava.Text.Numeral
