import EoJava.Text.Lines
import Mathlib.Data.List.Basic

/-!
# Lines of a text

A line feed ends a line, wherever it is (`splitLines_lineFeed`). So the lines of a text are the
unbroken texts between its line feeds (`splitLines_intercalate`, `unbroken_of_mem_lines`).
-/

namespace EoJava.Text

/-- There is no line feed in a text. -/
def Unbroken (text : List Char) : Prop :=
  '\n' ∉ text

instance (text : List Char) : Decidable (Unbroken text) :=
  inferInstanceAs (Decidable (_ ∉ _))

@[simp]
theorem unbroken_nil : Unbroken [] :=
  List.not_mem_nil

@[simp]
theorem unbroken_cons {c : Char} {text : List Char} :
    Unbroken (c :: text) ↔ '\n' ≠ c ∧ Unbroken text := by
  simp [Unbroken]

/-- Two texts together are on one line if both are. -/
@[simp]
theorem unbroken_append {first second : List Char} :
    Unbroken (first ++ second) ↔ Unbroken first ∧ Unbroken second := by
  simp [Unbroken]

/-- What holds of the characters of the parts and of what is between them holds of the whole. -/
theorem forall_mem_intercalate {P : Char → Prop} {between : String}
    (hbetween : ∀ c ∈ between.toList, P c) {texts : List String}
    (h : ∀ text ∈ texts, ∀ c ∈ text.toList, P c) :
    ∀ c ∈ (between.intercalate texts).toList, P c := by
  induction texts with
  | nil => exact List.forall_mem_nil _
  | cons text texts ih =>
      obtain ⟨htext, htexts⟩ := List.forall_mem_cons.1 h
      cases texts with
      | nil => simpa using htext
      | cons next texts =>
          rw [String.intercalate_cons_of_ne_nil (List.cons_ne_nil next texts), String.toList_append,
            String.toList_append]
          exact List.forall_mem_append.2 ⟨List.forall_mem_append.2 ⟨htext, hbetween⟩, ih htexts⟩

/-- Texts with others between them are on one line if all are. -/
theorem unbroken_intercalate {between : String} (hbetween : Unbroken between.toList)
    {texts : List String} (h : ∀ text ∈ texts, Unbroken text.toList) :
    Unbroken (between.intercalate texts).toList :=
  List.forall_mem_ne.1 (forall_mem_intercalate (List.forall_mem_ne.2 hbetween) fun text htext =>
    List.forall_mem_ne.2 (h text htext))

/-! ## Splitting -/

/-- Every text has a line, if only an empty one. -/
theorem splitLines_ne_nil (text : List Char) : splitLines text ≠ [] := by
  fun_cases splitLines text <;> simp

/-- A line feed ends a line, wherever it is. -/
theorem splitLines_lineFeed (text rest : List Char) :
    splitLines (text ++ '\n' :: rest) = splitLines text ++ splitLines rest := by
  induction text with
  | nil => simp [splitLines]
  | cons c text ih =>
      rw [List.cons_append, splitLines, splitLines, ih]
      by_cases hc : c = '\n'
      · rw [if_pos hc, if_pos hc]
        rfl
      · rw [if_neg hc, if_neg hc]
        cases hlines : splitLines text with
        | nil => exact absurd hlines (splitLines_ne_nil text)
        | cons line lines => rfl

/-- An unbroken text is one line. -/
theorem splitLines_of_unbroken {line : List Char} (h : Unbroken line) :
    splitLines line = [line] := by
  induction line with
  | nil => rfl
  | cons c cs ih =>
      obtain ⟨hc, hcs⟩ := unbroken_cons.1 h
      rw [splitLines, if_neg hc.symm, ih hcs]

/-- A line feed ends the first line. -/
theorem splitLines_append {line : List Char} (h : Unbroken line) (rest : List Char) :
    splitLines (line ++ '\n' :: rest) = line :: splitLines rest := by
  rw [splitLines_lineFeed, splitLines_of_unbroken h]
  rfl

/-- Where two texts meet, the last line of the first goes on with the first line of the second. -/
theorem exists_splitLines_append (first more : List Char) : ∃ init last next rest,
    splitLines first = init ++ [last] ∧ splitLines more = next :: rest ∧
      splitLines (first ++ more) = init ++ (last ++ next) :: rest := by
  obtain ⟨next, rest, hmore⟩ := List.exists_cons_of_ne_nil (splitLines_ne_nil more)
  suffices h : ∃ init last, splitLines first = init ++ [last] ∧
      splitLines (first ++ more) = init ++ (last ++ next) :: rest by
    obtain ⟨init, last, hfirst, hwhole⟩ := h
    exact ⟨init, last, next, rest, hfirst, hmore, hwhole⟩
  induction first with
  | nil => exact ⟨[], [], rfl, hmore⟩
  | cons c first ih =>
      obtain ⟨init, last, hfirst, hwhole⟩ := ih
      rw [List.cons_append, splitLines, splitLines, hfirst, hwhole]
      by_cases hc : c = '\n'
      · rw [if_pos hc, if_pos hc]
        exact ⟨[] :: init, last, rfl, rfl⟩
      · rw [if_neg hc, if_neg hc]
        cases init with
        | nil => exact ⟨[], c :: last, rfl, rfl⟩
        | cons line init => exact ⟨(c :: line) :: init, last, rfl, rfl⟩

/-- An unbroken text in front of another goes before its first line. -/
theorem splitLines_unbroken_append {line more next : List Char} {rest : List (List Char)}
    (h : Unbroken line) (hmore : splitLines more = next :: rest) :
    splitLines (line ++ more) = (line ++ next) :: rest := by
  obtain ⟨init, last, other, others, hline, hother, hwhole⟩ := exists_splitLines_append line more
  cases hmore.symm.trans hother
  obtain ⟨rfl, rfl⟩ : init = [] ∧ last = line := by
    rw [splitLines_of_unbroken h] at hline
    cases init with
    | nil => exact ⟨rfl, (List.cons.inj hline).1.symm⟩
    | cons first init => simp at hline
  exact hwhole

/-- Unbroken texts with line feeds between them are the lines of the whole. -/
theorem splitLines_intercalate {texts : List String} (hne : texts ≠ [])
    (h : ∀ text ∈ texts, Unbroken text.toList) :
    splitLines ("\n".intercalate texts).toList = texts.map String.toList := by
  induction texts with
  | nil => exact absurd rfl hne
  | cons text texts ih =>
      obtain ⟨htext, htexts⟩ := List.forall_mem_cons.1 h
      cases texts with
      | nil => simp [splitLines_of_unbroken htext]
      | cons next texts =>
          have hwhole : ("\n".intercalate (text :: next :: texts)).toList =
              text.toList ++ '\n' :: ("\n".intercalate (next :: texts)).toList := by
            rw [String.intercalate_cons_of_ne_nil (List.cons_ne_nil next texts)]
            simp
          rw [hwhole, splitLines_append htext, ih (List.cons_ne_nil next texts) htexts]
          rfl

/-- No line feed is in a line. -/
theorem unbroken_of_mem_splitLines {text line : List Char} (h : line ∈ splitLines text) :
    Unbroken line := by
  fun_induction splitLines text generalizing line with
  | case1 =>
      obtain rfl := List.mem_singleton.1 h
      exact unbroken_nil
  | case2 cs ih =>
      rcases List.mem_cons.1 h with rfl | h
      · exact unbroken_nil
      · exact ih h
  | case3 c cs hc hlines ih =>
      obtain rfl := List.mem_singleton.1 h
      exact unbroken_cons.2 ⟨Ne.symm hc, unbroken_nil⟩
  | case4 c cs hc first others hlines ih =>
      rw [hlines] at ih
      rcases List.mem_cons.1 h with rfl | h
      · exact unbroken_cons.2 ⟨Ne.symm hc, ih List.mem_cons_self⟩
      · exact ih (List.mem_cons_of_mem _ h)

/-! ## Carriage returns -/

theorem dropReturn_of_getLast? {line : List Char} (h : line.getLast? ≠ some '\r') :
    dropReturn line = line :=
  if_neg h

theorem dropReturn_subset (line : List Char) : dropReturn line ⊆ line := by
  rw [dropReturn]
  split
  · exact List.dropLast_subset line
  · exact List.Subset.refl line

/-- A carriage return is dropped at the end of the line only. -/
theorem dropReturn_append {line : List Char} (text : List Char) (h : line ≠ []) :
    dropReturn (text ++ line) = text ++ dropReturn line := by
  have hlast : (text ++ line).getLast? = line.getLast? := by
    rw [List.getLast?_append, Option.or_of_isSome]
    exact List.getLast?_isSome.2 h
  rw [dropReturn, dropReturn, hlast]
  split
  · exact List.dropLast_append_of_ne_nil h
  · rfl

theorem mem_head?_of_dropReturn {line : List Char} {d : Char} (h : d ∈ (dropReturn line).head?) :
    d ∈ line.head? := by
  rw [dropReturn] at h
  split at h
  · rw [List.head?_dropLast] at h
    split at h
    · exact h
    · cases h
  · exact h

/-! ## Lines -/

/-- A line of a text holds no line feed. -/
theorem unbroken_of_mem_lines {text line : List Char} (h : line ∈ lines text) : Unbroken line := by
  obtain ⟨whole, hwhole, rfl⟩ := List.mem_map.1 h
  exact fun hmem => unbroken_of_mem_splitLines hwhole (dropReturn_subset whole hmem)

/-- Every text has a line without its carriage return. -/
theorem lines_ne_nil (text : List Char) : lines text ≠ [] := by
  simp [lines, splitLines_ne_nil]

/-- What is before the first line feed is the first line, without a carriage return at its end. -/
theorem lines_append {line : List Char} (h : Unbroken line) (rest : List Char) :
    lines (line ++ '\n' :: rest) = dropReturn line :: lines rest := by
  rw [lines, splitLines_append h]
  rfl

/-! ## Byte order marks -/

/-- The mark at the start of a text is dropped from its first line. -/
theorem dropMark_lineFeed (text rest : List Char) :
    dropMark (text ++ '\n' :: rest) = dropMark text ++ '\n' :: rest := by
  cases text with
  | nil => rfl
  | cons c text =>
      rw [List.cons_append, dropMark, dropMark]
      split <;> rfl

/-- The mark at the start of a text does not depend on what follows. -/
theorem dropMark_append {text : List Char} (rest : List Char) (h : text ≠ []) :
    dropMark (text ++ rest) = dropMark text ++ rest := by
  cases text with
  | nil => exact absurd rfl h
  | cons c text =>
      rw [List.cons_append, dropMark, dropMark]
      split <;> rfl

/-- A mark is dropped from the first line. -/
theorem splitLines_dropMark (text : List Char) :
    splitLines (dropMark text) = (splitLines text).modifyHead dropMark := by
  cases text with
  | nil => rfl
  | cons c text =>
      obtain ⟨line, lines, hlines⟩ := List.exists_cons_of_ne_nil (splitLines_ne_nil text)
      by_cases hc : c = '\uFEFF'
      · subst hc
        rw [dropMark, if_pos rfl, splitLines, if_neg (by decide), hlines]
        rfl
      · rw [dropMark, if_neg hc, splitLines, hlines]
        split
        · rfl
        · rw [List.modifyHead_cons, dropMark, if_neg hc]

/-- A text that starts with something else has no mark. -/
theorem dropMark_of_head? {text : List Char} (h : text.head? ≠ some '\uFEFF') :
    dropMark text = text := by
  cases text with
  | nil => rfl
  | cons c text => exact if_neg fun hc => h (congrArg some hc)

theorem dropMark_suffix (text : List Char) : dropMark text <:+ text := by
  cases text with
  | nil => exact List.suffix_refl []
  | cons c cs =>
      rw [dropMark]
      split
      · exact List.suffix_cons c cs
      · exact List.suffix_refl _

end EoJava.Text
