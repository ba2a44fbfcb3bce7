import EoJava.Proofs.Text.Lines

/-!
# Line ends

A carriage return before a line feed belongs to the line end. So a text without such pairs has the
same lines when a carriage return is put before every line feed (`lines_withReturns`).
-/

namespace EoJava.Text

/-- A text with a carriage return before every line feed. -/
def withReturns (text : List Char) : List Char :=
  text.flatMap fun c => if c = '\n' then ['\r', '\n'] else [c]

theorem withReturns_lineFeed (line rest : List Char) :
    withReturns (line ++ '\n' :: rest) = withReturns line ++ '\r' :: '\n' :: withReturns rest := by
  simp [withReturns]

theorem withReturns_of_unbroken {line : List Char} (h : Unbroken line) :
    withReturns line = line := by
  have hsame : ∀ c ∈ line, (if c = '\n' then ['\r', '\n'] else [c]) = [c] := by
    intro c hc
    refine if_neg ?_
    rintro rfl
    exact h hc
  rw [withReturns, List.flatMap_congr hsame, List.flatMap_singleton']

/-- A line before a line feed does not end with a carriage return if no such pair is in the text. -/
theorem getLast?_of_no_pair {line rest : List Char}
    (h : ¬ ['\r', '\n'] <:+: line ++ '\n' :: rest) : line.getLast? ≠ some '\r' := by
  intro hlast
  obtain ⟨init, rfl⟩ := List.getLast?_eq_some_iff.1 hlast
  exact h ⟨init, rest, by simp⟩

/-- Carriage returns before the line feeds belong to no line. -/
theorem lines_withReturns {text : List Char} (h : ¬ ['\r', '\n'] <:+: text) :
    lines (withReturns text) = lines text := by
  induction hlength : text.length using Nat.strongRecOn generalizing text with
  | ind length ih =>
    by_cases hunbroken : Unbroken text
    · rw [withReturns_of_unbroken hunbroken]
    · obtain ⟨line, rest, rfl, hline⟩ := List.eq_append_cons_of_mem (not_not.1 hunbroken)
      have hrest : lines (withReturns rest) = lines rest := by
        refine ih rest.length ?_ (fun hpair => h ?_) rfl
        · rw [← hlength, List.length_append, List.length_cons]
          omega
        · exact hpair.trans ((List.suffix_cons '\n' rest).trans (List.suffix_append _ _)).isInfix
      have hreturn : dropReturn (line ++ ['\r']) = line := by
        rw [dropReturn_append line (List.cons_ne_nil '\r' [])]
        exact List.append_nil line
      have hbroken : Unbroken (line ++ ['\r']) := unbroken_append.2 ⟨hline, by decide⟩
      rw [withReturns_lineFeed, withReturns_of_unbroken hline, List.append_cons,
        lines_append hbroken, lines_append hline, hreturn, hrest,
        dropReturn_of_getLast? (getLast?_of_no_pair h)]

/-- A byte order mark stays at the start of a text. -/
theorem dropMark_withReturns (text : List Char) :
    dropMark (withReturns text) = withReturns (dropMark text) := by
  cases text with
  | nil => rfl
  | cons c cs =>
      by_cases hmark : c = '\uFEFF'
      · subst hmark
        rfl
      · have hhead : (withReturns (c :: cs)).head? ≠ some '\uFEFF' := by
          rw [withReturns, List.flatMap_cons]
          split
          · simp
          · simpa using hmark
        rw [dropMark_of_head? hhead, dropMark, if_neg hmark]

end EoJava.Text
