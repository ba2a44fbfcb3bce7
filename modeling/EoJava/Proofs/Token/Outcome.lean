import EoJava.Proofs.Token.Rows
import EoJava.Proofs.Token.Strings

/-!
# Readings that end

A reading in sequence ends well exactly if each part does (`bind_eq_ok_iff`). A run of lines that is
read to its end ends at the last of them (`last_of_lines`).
-/

namespace EoJava

namespace Reading

variable {α β : Type}

theorem eq_pure_iff {met : List (Located Lexeme)} {a b : α} :
    (pure a : Reading α) = ⟨met, .ok b⟩ ↔ met = [] ∧ a = b := by
  constructor
  · rintro ⟨⟩
    exact ⟨rfl, rfl⟩
  · rintro ⟨rfl, rfl⟩
    rfl

/-- Readings in sequence end well if the first does, and then the second. -/
theorem bind_eq_ok_iff {first : Reading α} {next : α → Reading β} {met : List (Located Lexeme)}
    {b : β} : first >>= next = ⟨met, .ok b⟩ ↔
      ∃ a earlier later, first = ⟨earlier, .ok a⟩ ∧ next a = ⟨later, .ok b⟩ ∧
        met = earlier ++ later := by
  rcases first with ⟨earlier, problem | a⟩
  · refine iff_of_false (fun h => ?_) (by rintro ⟨_, _, _, ⟨⟩, _⟩)
    cases congrArg Reading.outcome h
  · rw [ok_bind]
    constructor
    · intro h
      rcases hnext : next a with ⟨later, outcome⟩
      rw [hnext] at h
      cases h
      exact ⟨a, earlier, later, rfl, hnext, rfl⟩
    · rintro ⟨_, _, later, ⟨⟩, hnext, rfl⟩
      rw [hnext]
      rfl

end Reading

/-! ## Lines -/

namespace Scan

section

variable {layout : Layout} {text : List Char}

theorem line_of_bare (number : Int) (layout : Layout) (h : Text.holdsNothing text) :
    line number layout text = pure layout := by
  rw [line, if_pos h]

/-- A line that starts outside parentheses settles the layout first. -/
theorem line_of_outside (number : Int) (h : Text.holdsNothing text = false)
    (hdepth : layout.depth = 0) :
    line number layout text = layout.enter number text >>= settled number text := by
  rw [line, if_neg (by simp [h]), if_pos hdepth]
  rfl

theorem line_of_inside (number : Int) (h : Text.holdsNothing text = false)
    (hdepth : layout.depth ≠ 0) : line number layout text = settled number text layout := by
  rw [line, if_neg (by simp [h]), if_neg hdepth]
  rfl

end

/-- The end of a line is met after its lexemes if no parenthesis is open. -/
theorem settled_eq (number : Int) (text : List Char) (layout : Layout) :
    settled number text layout = content number layout.depth (.start text) >>= fun depth =>
      ⟨if depth = 0 then [⟨⟨number, Text.width text + 1⟩, .newline⟩] else [],
        .ok { layout with depth }⟩ := by
  refine bind_congr fun depth => ?_
  by_cases hdepth : depth = 0
  · rw [if_pos hdepth, if_pos hdepth]
    rfl
  · rw [if_neg hdepth, if_neg hdepth]
    rfl

/-- A source is read line by line to its end. -/
theorem source_eq_rest (text : List Char) :
    source text = rest 1 {} (Text.lines (Text.dropMark text)) :=
  rfl

/-- The open blocks are closed without a problem. -/
theorem outcome_closeAll (number : Int) (widths : List Nat) :
    (closeAll number widths).outcome = .ok () := by
  induction widths with
  | nil => rfl
  | cons width widths ih => exact ih

/-- A run of lines that is read to its end ends at the last of them. -/
theorem last_of_lines {number : Int} {layout last : Layout} {texts : List (List Char)} {final : Int}
    {met : List (Located Lexeme)} (h : lines number layout texts = ⟨met, .ok (final, last)⟩) :
    final = number + texts.length - 1 := by
  induction texts generalizing number layout met with
  | nil =>
      cases (Reading.eq_pure_iff.1 h).2
      simp
  | cons text texts ih =>
      obtain ⟨_, _, _, _, hlines, -⟩ := Reading.bind_eq_ok_iff.1 h
      rw [ih hlines, List.length_cons]
      omega

end Scan

end EoJava
