import EoJava.Proofs.Token.Tiling

/-!
# Where terminals stand in a source

In lines that are covered by placed terminals, a terminal with content is spelled where it is placed
(`Covers.spelledFrom`), and such terminals are placed one after the other (`Covers.sorted`).
-/

namespace EoJava

open Grammar (Terminal)

/-- A position comes before another: on an earlier line, or on the same line further left. -/
def Position.Before (first second : Position) : Prop :=
  first.line < second.line ∨ first.line = second.line ∧ first.column < second.column

instance (first second : Position) : Decidable (first.Before second) :=
  inferInstanceAs (Decidable (_ ∨ _))

namespace Scan

/-- The spelling of a terminal starts at a position of lines, counting from a number. -/
def SpelledFrom (number : Int) (texts : List (List Char)) (position : Position) (t : Terminal) :
    Prop :=
  ∃ (i : Nat) (before spelled rest : List Char), texts[i]? = some (before ++ (spelled ++ rest)) ∧
    position = ⟨number + i, Text.width before + 1⟩ ∧ t.SpelledBy spelled

/-- The spelling of a terminal starts at a position of a source. -/
def StartsAt (source : List Char) (position : Position) (t : Terminal) : Prop :=
  SpelledFrom 1 (Text.lines (Text.dropMark source)) position t

variable {line number : Int} {offset : Nat} {text : List Char} {texts : List (List Char)}
  {placed : List (Located Terminal)}

/-- A terminal that covers a part of a text is spelled where it is placed. -/
theorem Tiles.spelled (h : Tiles line offset text placed) : ∀ found ∈ placed,
    ∃ before spelled rest, text = before ++ (spelled ++ rest) ∧
      found.position = ⟨line, offset + Text.width before + 1⟩ ∧ found.value.SpelledBy spelled := by
  induction h with
  | done | comment => exact List.forall_mem_nil _
  | @gap offset c rest placed hgap _ ih =>
      intro found hfound
      obtain ⟨before, spelled, rest, rfl, hposition, hspelled⟩ := ih found hfound
      refine ⟨c :: before, spelled, rest, rfl, ?_, hspelled⟩
      rw [hposition, Text.width_cons, Text.units_of_isGap hgap]
      congr 1
      omega
  | @token offset t spelled rest placed hspelled _ _ ih =>
      refine List.forall_mem_cons.2 ⟨⟨[], spelled, rest, rfl, by simp, hspelled⟩, ?_⟩
      intro found hfound
      obtain ⟨before, other, rest, rfl, hposition, hother⟩ := ih found hfound
      refine ⟨spelled ++ before, other, rest, by simp, ?_, hother⟩
      rw [hposition, Text.width_append]
      congr 1
      omega

/-- Terminals that cover a text are placed after its start, each to the right of those before. -/
theorem Tiles.sorted (h : Tiles line offset text placed) :
    (∀ found ∈ placed, (offset : Int) < found.position.column) ∧
      placed.Pairwise fun first second => first.position.column < second.position.column := by
  induction h with
  | done | comment => exact ⟨List.forall_mem_nil _, .nil⟩
  | @gap offset c rest placed _ _ ih =>
      refine ⟨fun found hfound => ?_, ih.2⟩
      have hright := ih.1 found hfound
      omega
  | @token offset t spelled rest placed hspelled _ _ ih =>
      have hpos := hspelled.width_pos
      refine ⟨List.forall_mem_cons.2 ⟨?_, fun found hfound => ?_⟩,
        .cons (fun found hfound => ?_) ih.2⟩
      · show (offset : Int) < offset + 1
        omega
      · have hright := ih.1 found hfound
        omega
      · have hright := ih.1 found hfound
        show (offset : Int) + 1 < found.position.column
        omega

/-- A terminal with content is spelled on its line where it is placed. -/
theorem Covers.spelledFrom (h : Covers number texts placed) {found : Located Terminal}
    (hfound : found ∈ placed) (hcontent : found.value.kind.isContent) :
    SpelledFrom number texts found.position found.value := by
  obtain ⟨i, hi, hline⟩ := h.lines found hfound hcontent
  have hon : found ∈ contentOn (number + i) placed :=
    List.mem_filter.2 ⟨hfound, by simp [hcontent, hline]⟩
  have hget : texts[i]? = some texts[i] := List.getElem?_eq_getElem hi
  by_cases hbare : Bare texts[i]
  · rw [h.bare i _ hget hbare] at hon
    cases hon
  · obtain ⟨before, spelled, rest, htext, hposition, hspelled⟩ :=
      (h.tiles i _ hget hbare).spelled found hon
    refine ⟨i, before, spelled, rest, htext ▸ hget, ?_, hspelled⟩
    rw [hposition]
    congr 1
    omega

/-- Terminals with content are placed one after the other. -/
theorem Covers.sorted (h : Covers number texts placed) :
    (placed.filter (·.value.kind.isContent)).Pairwise fun first second =>
      first.position.Before second.position := by
  refine List.pairwise_iff_forall_sublist.2 fun {first second} hpair => ?_
  have hall : ∀ found ∈ [first, second], found.value.kind.isContent := fun found hfound =>
    (List.mem_filter.1 (hpair.subset hfound)).2
  have hplaced := hpair.trans List.filter_sublist
  have hle : first.position.line ≤ second.position.line := h.ordered.forall_sublist hplaced
  rcases Int.lt_or_eq_of_le hle with hlt | heq
  · exact .inl hlt
  · -- On one line the columns decide, as both are among the terminals that tile it.
    obtain ⟨i, hi, hline⟩ := h.lines first (hplaced.subset (by simp)) (hall first (by simp))
    have hget : texts[i]? = some texts[i] := List.getElem?_eq_getElem hi
    have hon : [first, second].Sublist (contentOn (number + i) placed) := by
      have hfilter := hplaced.filter fun found =>
        found.value.kind.isContent && found.position.line == number + i
      rwa [List.filter_eq_self.2] at hfilter
      simpa [hline, ← heq] using hall
    by_cases hbare : Bare texts[i]
    · rw [h.bare i _ hget hbare] at hon
      exact absurd (List.sublist_nil.1 hon) (by simp)
    · exact .inr ⟨heq, (h.tiles i _ hget hbare).sorted.2.forall_sublist hon⟩

end Scan

end EoJava
