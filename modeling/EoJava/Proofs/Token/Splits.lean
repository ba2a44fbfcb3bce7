import EoJava.Proofs.Breakdown
import EoJava.Proofs.Diagnostic.Picture
import EoJava.Proofs.Token.Sites

/-!
# Where a scan splits its source

What a scan gives, and what stops it, is at a place of one of the lines of its source
(`splits_of_met`, `splits_of_stopped`).
-/

namespace EoJava

open Text (Cursor)

namespace Text

theorem isNarrow_of_isGap {c : Char} (h : isGap c) : IsNarrow c := by
  refine ⟨units_of_isGap h, ?_⟩
  rintro rfl
  cases h

/-- A place in the indentation of a line is as many units from its start. -/
theorem splits_of_le_indentWidth {text : List Char} {offset : Nat} (h : offset ≤ indentWidth text) :
    ∃ before rest, text = before ++ rest ∧ offset = width before := by
  refine ⟨text.take offset, text.drop offset, (List.take_append_drop ..).symm, ?_⟩
  have hgap : Narrow (text.take offset) := by
    intro c hc
    have htake : text.take offset = (text.takeWhile isGap).take offset := by
      conv_lhs => rw [← List.takeWhile_append_dropWhile (p := isGap) (l := text)]
      exact List.take_append_of_le_length h
    rw [htake] at hc
    exact isNarrow_of_isGap (List.mem_takeWhile_imp (List.mem_of_mem_take hc))
  rw [hgap.width, List.length_take, Nat.min_eq_left]
  exact Nat.le_trans h (List.takeWhile_sublist isGap).length_le

end Text

namespace Lexing

/-- An escape that is unknown stands where it is said to. -/
theorem escape_of_readString {offset place : Nat} {text : List Char} {escaped : Char}
    (h : readString offset text = .error (.unknownEscape place escaped)) :
    ∃ before rest, text = before ++ '\\' :: escaped :: rest ∧
      place = offset + Text.width before := by
  fun_induction readString offset text with
  | case1 | case2 | case3 => cases h
  | case4 offset c rest hnone =>
      cases h
      exact ⟨[], rest, rfl, rfl⟩
  | case5 offset c rest value hvalue ih =>
      obtain ⟨before, more, rfl, rfl⟩ := ih (map_eq_error.1 h)
      have hslash : Text.units '\\' = 1 := by decide
      refine ⟨'\\' :: c :: before, more, rfl, ?_⟩
      rw [Text.width_cons, Text.width_cons, hslash, units_of_escaped? hvalue]
      omega
  | case6 offset c rest hquote hend hslash ih =>
      obtain ⟨before, more, rfl, rfl⟩ := ih (map_eq_error.1 h)
      refine ⟨c :: before, more, rfl, ?_⟩
      rw [Text.width_cons]
      omega

/-- A problem with the lexeme at a place of a text is at a place of that text, and what it tells is
on one line if the text is. -/
theorem splits_of_next? {text rest : List Char} {c : Char} {offset place : Nat} {problem : Problem}
    (h : next? c rest offset = .error (place, problem))
    (hhere : Cursor.StandsIn text ⟨c :: rest, offset⟩) :
    (∃ before more, text = before ++ more ∧ place = Text.width before) ∧
      (Text.Unbroken text → problem.Unbroken) := by
  obtain ⟨before, rfl, hoffset⟩ := hhere
  have hhere : ∃ first more, before ++ c :: rest = first ++ more ∧ offset = Text.width first :=
    ⟨before, c :: rest, rfl, hoffset⟩
  simp only [next?] at h
  split at h
  · cases h
  · split at h
    · cases h
    · split at h
      · next hquote =>
          split at h
          · cases h
          · cases h
            exact ⟨hhere, fun _ => by decide⟩
          · next escaped hread =>
              cases h
              obtain ⟨quoted, more, rfl, rfl⟩ := escape_of_readString hread
              have hunits : Text.units '"' = 1 := by decide
              simp only [Text.unbroken_append, Text.unbroken_cons]
              refine ⟨⟨before ++ c :: quoted, '\\' :: escaped :: more, by simp, ?_⟩,
                fun htext => Problem.unbroken_unknownEscape htext.2.2.2.2.1⟩
              rw [show offset = Text.width before from hoffset, Text.width_append, Text.width_cons,
                hquote, hunits, Nat.add_assoc]
      · split at h
        · cases h
        · cases h
          rw [Text.unbroken_append, Text.unbroken_cons]
          exact ⟨hhere, fun htext => Problem.unbroken_unknownCharacter htext.2.1⟩

end Lexing

namespace Scan

variable {texts : List (List Char)}

/-- What closes a line is at a place of that line. -/
theorem Closes.splits {found : Located Lexeme} (h : Closes number text found) :
    ∃ before rest, text = before ++ rest ∧ found.position = ⟨number, Text.width before + 1⟩ := by
  obtain h | rfl := h
  · cases h with
    | layout h => cases h <;> exact ⟨[], text, rfl, rfl⟩
    | newline => exact ⟨text, [], (List.append_nil text).symm, rfl⟩
    | lexeme hhere hnext =>
        obtain ⟨before, htext, hoffset⟩ := hhere
        exact ⟨before, _, htext, by rw [← hoffset]⟩
  · exact ⟨[], text, rfl, rfl⟩

/-- What is wrong with the indentation of a line is at a place of that line, and it is told on one
line. -/
theorem splits_of_layout {found : Located Problem} (h : Layout.Stops number text found) :
    (∃ before rest, text = before ++ rest ∧ found.position = ⟨number, Text.width before + 1⟩) ∧
      found.value.Unbroken := by
  cases h with
  | @mixed style offset h =>
      have hlt : offset < (text.takeWhile Text.isGap).length :=
        (List.findIdx?_eq_some_iff_findIdx_eq.1 h).1
      obtain ⟨before, rest, htext, rfl⟩ := Text.splits_of_le_indentWidth (Nat.le_of_lt hlt)
      exact ⟨⟨before, rest, htext, rfl⟩, Problem.unbroken_mixedIndentation style⟩
  | inconsistent expected found =>
      exact ⟨⟨[], text, rfl, rfl⟩, Problem.unbroken_inconsistentIndentation expected found⟩
  | unmatched levels =>
      obtain ⟨before, rest, htext, hwidth⟩ := Text.splits_of_le_indentWidth (Nat.le_refl _)
      exact ⟨⟨before, rest, htext, by rw [← hwidth]⟩, Problem.unbroken_unmatchedUnindent _ levels⟩

/-- What stops a line is at a place of that line, and what it tells is on one line if the text of
the line is. -/
theorem Stops.splits {found : Located Problem} (h : Stops number text found) :
    (∃ before rest, text = before ++ rest ∧ found.position = ⟨number, Text.width before + 1⟩) ∧
      (Text.Unbroken text → found.value.Unbroken) := by
  cases h with
  | layout h =>
      obtain ⟨hplace, hunbroken⟩ := splits_of_layout h
      exact ⟨hplace, fun _ => hunbroken⟩
  | lexeme hhere hnext =>
      obtain ⟨⟨before, rest, htext, rfl⟩, hunbroken⟩ := Lexing.splits_of_next? hnext hhere
      exact ⟨⟨before, rest, htext, rfl⟩, hunbroken⟩

/-- Every lexeme of a source is at a place of one of its lines. -/
theorem splits_of_met {source : List Char} {found : Located Lexeme}
    (h : found ∈ (Scan.source source).lexemes) :
    ∃ before rest, found.position.Splits 1 (Text.lines (Text.dropMark source)) before rest := by
  obtain ⟨i, line, hline, hcloses⟩ := (within_source source).lexemes found h
  obtain ⟨before, rest, rfl, hposition⟩ := hcloses.splits
  exact ⟨before, rest, i, hline, hposition⟩

/-- The problem that stops a scan is at a place of a line of the source, and it tells what is on one
line. -/
theorem splits_of_stopped {source : List Char} {problem : Located Problem}
    (h : (Scan.source source).outcome = .error problem) :
    (∃ before rest,
      problem.position.Splits 1 (Text.lines (Text.dropMark source)) before rest) ∧
      problem.value.Unbroken := by
  obtain ⟨i, line, hline, hstops⟩ := (within_source source).problem problem h
  obtain ⟨⟨before, rest, rfl, hposition⟩, hunbroken⟩ := hstops.splits
  exact ⟨⟨before, rest, i, hline, hposition⟩,
    hunbroken (Text.unbroken_of_mem_lines (List.mem_of_getElem? hline))⟩

end Scan

end EoJava
