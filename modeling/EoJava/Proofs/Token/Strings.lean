import EoJava.Token.Scan

/-!
# String literals

A string that is found at a cursor stands there between quotes, and its value is what the text
between them stands for. The cursor after any lexeme still stands in the text
(`standsIn_of_next?`).
-/

namespace EoJava

open Text (Cursor)

/-! ## Quoted texts -/

namespace Lexing

/-- The escapes of a string literal, each with the character that it stands for. -/
def escapes : List (Char × Char) :=
  [('"', '"'), ('\\', '\\'), ('n', '\n'), ('r', '\r'), ('t', '\t')]

/-- What a text between quotes stands for: an escape for its character, and any other character for
itself. -/
inductive Unescapes : List Char → List Char → Prop where
  | nil : Unescapes [] []
  | escape {c value : Char} {raw cs : List Char} (h : (c, value) ∈ escapes)
      (hraw : Unescapes raw cs) : Unescapes ('\\' :: c :: raw) (value :: cs)
  | plain {c : Char} {raw cs : List Char} (hquote : c ≠ '"') (hslash : c ≠ '\\')
      (hraw : Unescapes raw cs) : Unescapes (c :: raw) (c :: cs)

/-- A text has a string literal with a value after so many units. -/
def Quotes (text : List Char) (offset : Nat) (value : String) : Prop :=
  ∃ before raw rest, text = before ++ '"' :: (raw ++ '"' :: rest) ∧ Text.width before = offset ∧
    Unescapes raw value.toList

theorem mem_escapes {c value : Char} (h : escaped? c = some value) : (c, value) ∈ escapes := by
  unfold escaped? at h
  split at h
  case h_6 => cases h
  all_goals
    cases h
    decide

theorem units_of_escaped? {c value : Char} (h : escaped? c = some value) : Text.units c = 1 := by
  have hescapes : ∀ entry ∈ escapes, Text.units entry.1 = 1 := by decide
  exact hescapes _ (mem_escapes h)

/-- What is read as a string stands before its closing quote. -/
theorem unescapes_of_readString {offset : Nat} {text value : List Char} {after : Cursor}
    (h : readString offset text = .ok (value, after)) :
    ∃ raw, text = raw ++ '"' :: after.rest ∧ after.offset = offset + (Text.width raw + 1) ∧
      Unescapes raw value := by
  fun_induction readString offset text generalizing value after with
  | case1 | case3 | case4 => cases h
  | case2 offset rest =>
      cases h
      exact ⟨[], rfl, rfl, .nil⟩
  | case5 offset c rest escaped hescaped ih =>
      cases hread : readString (offset + 2) rest with
      | error fault => simp [hread, Except.map] at h
      | ok found =>
          rw [hread] at h
          cases h
          obtain ⟨raw, rfl, hoffset, hraw⟩ := ih hread
          have hslash : Text.units '\\' = 1 := by decide
          refine ⟨'\\' :: c :: raw, rfl, ?_, .escape (mem_escapes hescaped) hraw⟩
          rw [hoffset, Text.width_cons, Text.width_cons, units_of_escaped? hescaped, hslash]
          omega
  | case6 offset c rest hquote hend hslash ih =>
      cases hread : readString (offset + Text.units c) rest with
      | error fault => simp [hread, Except.map] at h
      | ok found =>
          rw [hread] at h
          cases h
          have hplain : c ≠ '\\' := by
            rintro rfl
            cases rest with
            | nil => exact hend rfl rfl
            | cons d ds => exact hslash d ds rfl rfl
          obtain ⟨raw, rfl, hoffset, hraw⟩ := ih hread
          refine ⟨c :: raw, rfl, ?_, .plain hquote hplain hraw⟩
          rw [hoffset, Text.width_cons]
          omega

theorem escaped?_of_mem {c value : Char} (h : (c, value) ∈ escapes) : escaped? c = some value := by
  have hescapes : ∀ entry ∈ escapes, escaped? entry.1 = some entry.2 := by decide
  exact hescapes _ h

/-- A text between quotes is read as what it stands for. -/
theorem readString_of_unescapes {raw value : List Char} (h : Unescapes raw value) (offset : Nat)
    (rest : List Char) :
    ∃ after, readString offset (raw ++ '"' :: rest) = .ok (value, ⟨rest, after⟩) := by
  induction h generalizing offset with
  | nil => exact ⟨_, rfl⟩
  | @escape c value raw cs h _ ih =>
      obtain ⟨after, hread⟩ := ih (offset + 2)
      refine ⟨after, ?_⟩
      simp [readString, escaped?_of_mem h, hread, Except.map]
  | @plain c raw cs hquote hslash _ ih =>
      obtain ⟨after, hread⟩ := ih (offset + Text.units c)
      refine ⟨after, ?_⟩
      rw [List.cons_append, readString.eq_def]
      split <;> simp_all [Except.map]

/-- A mark that is taken stands at the front. -/
theorem append_of_takeMark? {text rest : List Char} {mark : Mark}
    (h : takeMark? text = some (mark, rest)) : text = mark.text.toList ++ rest := by
  unfold takeMark? at h
  split at h
  case h_8 => cases h
  all_goals
    cases h
    rfl

end Lexing

/-! ## Cursors -/

theorem Text.units_of_isGap {c : Char} (h : isGap c) : units c = 1 := by
  simp only [isGap, Bool.or_eq_true, beq_iff_eq] at h
  rcases h with rfl | rfl <;> rfl

namespace Text.Cursor

/-- A cursor is somewhere in a text. -/
def StandsIn (text : List Char) (cursor : Cursor) : Prop :=
  ∃ before, text = before ++ cursor.rest ∧ cursor.offset = width before

variable {text : List Char} {cursor : Cursor}

theorem standsIn_start (text : List Char) : StandsIn text (start text) :=
  ⟨[], rfl, rfl⟩

/-- A cursor that is moved past a piece of its text still stands there. -/
theorem StandsIn.move (h : StandsIn text cursor) {taken rest : List Char} {offset : Nat}
    (hrest : cursor.rest = taken ++ rest) (hoffset : offset = cursor.offset + width taken) :
    StandsIn text ⟨rest, offset⟩ := by
  obtain ⟨before, rfl, hwidth⟩ := h
  refine ⟨before ++ taken, ?_, ?_⟩
  · rw [hrest, List.append_assoc]
  · rw [hoffset, hwidth, width_append]

end Text.Cursor

namespace Lexing

variable {text rest : List Char} {c : Char} {offset : Nat} {lexeme : Lexeme} {after : Cursor}

/-- The cursor after a lexeme stands in the text, and a string is quoted before it. -/
theorem standsIn_of_next? (h : next? c rest offset = .ok (lexeme, after))
    (hhere : Cursor.StandsIn text ⟨c :: rest, offset⟩) :
    after.StandsIn text ∧ ∀ value, lexeme = .string value → Quotes text offset value := by
  simp only [next?] at h
  split at h
  · cases h
    have hword : c :: rest = (c :: rest.takeWhile isNamePart) ++ rest.dropWhile isNamePart := by
      rw [List.cons_append, List.takeWhile_append_dropWhile]
    refine ⟨hhere.move hword rfl, fun value hvalue => ?_⟩
    unfold wordLexeme at hvalue
    split at hvalue <;> cases hvalue
  · split at h
    · next numeral left htake =>
        cases h
        exact ⟨hhere.move (Text.Numeral.append_of_take? htake).1.symm rfl,
          fun _ hvalue => by cases hvalue⟩
    · split at h
      · next hquote =>
          subst hquote
          split at h
          · next value found hread =>
              cases h
              obtain ⟨raw, rfl, hoffset, hraw⟩ := unescapes_of_readString hread
              have hunits : Text.units '"' = 1 := by decide
              have htext : '"' :: (raw ++ '"' :: after.rest) =
                  ('"' :: raw ++ ['"']) ++ after.rest := by
                simp
              refine ⟨hhere.move htext ?_, ?_⟩
              · simp only [hoffset, Text.width_append, Text.width_cons, hunits, Text.width_nil]
                omega
              · rintro _ ⟨⟩
                obtain ⟨before, rfl, hwidth⟩ := hhere
                exact ⟨before, raw, after.rest, rfl, hwidth.symm, by rwa [String.toList_ofList]⟩
          · cases h
          · cases h
      · split at h
        · next mark left htake =>
            cases h
            exact ⟨hhere.move (append_of_takeMark? htake) rfl, fun _ hvalue => by cases hvalue⟩
        · cases h

end Lexing

end EoJava
