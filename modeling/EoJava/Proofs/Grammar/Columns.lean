import EoJava.Proofs.Grammar.Printing

/-!
# Lines and columns of printed text

The place of a failure is turned into a line and a column and back into an offset before the token
there is looked up. In a text without carriage returns that leads to the end of the character at the
offset, if the offset stands inside one, and leaves it alone otherwise (`offsetOf_spec`). No token
starts inside a character, so the token is the same (`tokenAt_offsetOf`).
-/

namespace EoJava.Grammar

/-! ## There and back -/

/-- Reading on never goes back a line. -/
theorem le_lineColumn (text : List Char) (offset line column : Nat) :
    line ≤ (lineColumn.go offset line column text).1 := by
  induction text generalizing offset line column with
  | nil => exact Nat.le_refl line
  | cons c cs ih =>
      simp only [lineColumn.go]
      split
      · exact Nat.le_refl line
      split
      · exact Nat.le_of_succ_le (ih ..)
      split
      · exact ih ..
      · exact ih ..

/-- The line that is read starts where it does, however far the text goes on. -/
theorem lineStart_of_le {line : Nat} (h : line ≤ 1) (start offset : Nat) (text : List Char) :
    lineStart.go line start offset text = start := by
  cases text with
  | nil => rfl
  | cons c cs => simp [lineStart.go, h]

/-- The text before the place that an offset leads to, and the text after it. The place is the
first one at or after the offset that stands between two characters, or the end of the text. -/
structure Cut (text : List Char) (offset : Nat) (before after : List Char) : Prop where
  append : text = before ++ after
  reached : offset ≤ Text.width before ∨ after = []
  least : ∀ first, first <+: before → first ≠ before → Text.width first < offset

theorem Cut.cons {c : Char} {cs before after : List Char} {offset : Nat}
    (h : Cut cs (offset - Text.units c) before after) (hoffset : offset ≠ 0) :
    Cut (c :: cs) offset (c :: before) after := by
  refine ⟨by rw [h.append, List.cons_append], ?_, fun first hfirst hne => ?_⟩
  · rw [Text.width_cons]
    exact h.reached.imp_left fun hle => by omega
  · rcases List.prefix_cons_iff.1 hfirst with rfl | ⟨rest, rfl, hrest⟩
    · exact Nat.pos_of_ne_zero hoffset
    · have hlt := h.least rest hrest fun heq => hne (congrArg _ heq)
      rw [Text.width_cons]
      omega

/-- From the line and column of an offset back to a place. The induction is on the text: `column`
columns before the place where it starts, its line starts at `start`. -/
theorem exists_cut {text : List Char} (hreturn : '\r' ∉ text) (offset line column start place : Nat)
    (hplace : start + column = place + 1) :
    ∃ before after, Cut text offset before after ∧
      lineStart.go ((lineColumn.go offset line column text).1 - line + 1) start place text +
        (lineColumn.go offset line column text).2 = place + Text.width before + 1 := by
  induction text generalizing offset line column start place with
  | nil =>
      refine ⟨[], [], ⟨rfl, .inr rfl, fun first hfirst hne => ?_⟩, ?_⟩
      · exact absurd (List.prefix_nil.1 hfirst) hne
      · simpa [lineColumn.go, lineStart.go] using hplace
  | cons c cs ih =>
      have hc : c ≠ '\r' := fun h => hreturn (by simp [h])
      have hcs : '\r' ∉ cs := fun h => hreturn (List.mem_cons_of_mem c h)
      by_cases hoffset : offset = 0
      · refine ⟨[], c :: cs, ⟨rfl, .inl (by simp [hoffset]), fun first hfirst hne => ?_⟩, ?_⟩
        · exact absurd (List.prefix_nil.1 hfirst) hne
        · simpa [lineColumn.go, hoffset, lineStart_of_le] using hplace
      by_cases hfeed : c = '\n'
      · subst hfeed
        have hunits : Text.units '\n' = 1 := rfl
        obtain ⟨before, after, hcut, heq⟩ := ih hcs (offset - 1) (line + 1) 1 (place + 1)
          (place + 1) rfl
        have hgo : lineColumn.go offset line column ('\n' :: cs) =
            lineColumn.go (offset - 1) (line + 1) 1 cs := by
          simp [lineColumn.go, hoffset, hunits]
        have hle := le_lineColumn cs (offset - 1) (line + 1) 1
        have hstart (n : Nat) (hn : line + 1 ≤ n) : lineStart.go (n - line + 1) start place
            ('\n' :: cs) = lineStart.go (n - (line + 1) + 1) (place + 1) (place + 1) cs := by
          rw [lineStart.go, if_neg (by omega), if_pos rfl]
          congr 1
          omega
        refine ⟨'\n' :: before, after, hcut.cons hoffset, ?_⟩
        rw [hgo, hstart _ hle, heq, Text.width_cons, hunits]
        omega
      · obtain ⟨before, after, hcut, heq⟩ := ih hcs (offset - Text.units c) line
          (column + Text.units c) start (place + Text.units c) (by omega)
        have hgo : lineColumn.go offset line column (c :: cs) =
            lineColumn.go (offset - Text.units c) line (column + Text.units c) cs := by
          simp [lineColumn.go, hoffset, hfeed, hc]
        refine ⟨c :: before, after, hcut.cons hoffset, ?_⟩
        have hle := le_lineColumn cs (offset - Text.units c) line (column + Text.units c)
        -- On the last line that is read, nothing after the start of the line matters.
        have hstart : ∀ n, lineStart.go n start place (c :: cs) =
            lineStart.go n start (place + Text.units c) cs := by
          intro n
          rw [lineStart.go]
          split
          · next hn => exact (lineStart_of_le hn ..).symm
          · rfl
        rw [hgo, hstart, heq, Text.width_cons]
        omega

/-- A part of a text up to which an offset does not reach is not reached by the place that its line
and column lead back to either. -/
theorem offsetOf_le_iff {first rest : List Char} (hreturn : '\r' ∉ first ++ rest)
    (hne : rest ≠ []) (offset : Nat) :
    offsetOf (first ++ rest) (lineColumn offset (first ++ rest)) ≤ Text.width first ↔
      offset ≤ Text.width first := by
  obtain ⟨before, after, hcut, heq⟩ := exists_cut hreturn offset 1 1 0 0 rfl
  have hle := le_lineColumn (first ++ rest) offset 1 1
  have hplace : offsetOf (first ++ rest) (lineColumn offset (first ++ rest)) =
      Text.width before := by
    rw [offsetOf, lineStart, lineColumn]
    rw [Nat.sub_add_cancel hle] at heq
    omega
  rw [hplace]
  -- What follows is not empty, so if the text after the place is, the place lies further on.
  have hreached (h : after.length < rest.length → False) : offset ≤ Text.width before := by
    refine hcut.reached.resolve_right fun hnil => h ?_
    rw [hnil]
    exact List.length_pos_iff.2 hne
  obtain ⟨more, rfl, hrest⟩ | ⟨more, rfl, hafter⟩ := List.append_eq_append_iff.1 hcut.append
  · cases more with
    | nil =>
        rw [List.nil_append] at hrest
        rw [List.append_nil] at hreached ⊢
        exact iff_of_true (Nat.le_refl _) (hreached (by simp [hrest]))
    | cons c more =>
        have hlt := hcut.least first (List.prefix_append ..) (by simp)
        have hpos := Text.units_pos c
        simp only [Text.width_append, Text.width_cons]
        omega
  · have hle := hreached (by simp [hafter])
    simp only [Text.width_append]
    omega

/-! ## Printed tokens -/

/-- No control character stands in a printed token. -/
theorem printable_print {t : Terminal} (ht : t.Legible) : Printable t.print := by
  cases t with
  | indent | dedent | newline | endOfInput => decide
  | mark m => cases m <;> decide
  | name text =>
      have hcontrol : ∀ n < 0x20, isWordPart (Char.ofNat n) = false := by decide
      intro c hc
      by_contra hlt
      have hpart := isWordPart_of_mem_identifier ht c hc
      rw [← Char.ofNat_toNat c, hcontrol c.toNat (by omega)] at hpart
      cases hpart
  | number text =>
      obtain ⟨sign, whole, fraction, htext, hsign, hwhole, hfraction⟩ :=
        Text.Numeral.isNumeral_iff.1 ht
      have hdigits {digits : List Char} (h : Text.Numeral.IsDigits digits) : Printable digits :=
        fun c hc => Nat.le_trans (by decide) (isDigit_iff.1 (h.2 c hc)).1
      rw [Terminal.print, htext]
      refine List.forall_mem_append.2 ⟨?_, List.forall_mem_append.2 ⟨hdigits hwhole, ?_⟩⟩
      · have hsigns : Printable [] ∧ Printable ['-'] := by decide
        rcases hsign with rfl | rfl
        · exact hsigns.1
        · exact hsigns.2
      · rcases hfraction with rfl | ⟨digits, rfl, h⟩
        · exact List.forall_mem_nil _
        · exact List.forall_mem_cons.2 ⟨by decide, hdigits h⟩
  | string value =>
      rw [Terminal.print, Text.Quoted.quote]
      have hclosing : Printable ['"'] := by decide
      refine List.forall_mem_cons.2 ⟨by decide, List.forall_mem_append.2 ⟨fun d hd => ?_, hclosing⟩⟩
      obtain ⟨c, -, hmem⟩ := List.mem_flatMap.1 hd
      exact printable_escape c d hmem

theorem return_not_mem_print {t : Terminal} (ht : t.Legible) : '\r' ∉ t.print :=
  fun hmem => absurd (printable_print ht _ hmem) (by decide)

theorem width_feeds (lines : Nat) : Text.width (List.replicate lines '\n') = lines := by
  have hunits : Text.units '\n' = 1 := rfl
  induction lines with
  | zero => rfl
  | succ lines ih => rw [List.replicate_succ, Text.width_cons, ih, hunits, Nat.add_comm]

namespace Laid

variable {offset : Nat} {ts : List Terminal} {text : List Char} {starts : List Nat}

/-- Every token starts at the end of a part of the text that is not all of it. -/
theorem exists_part (h : Laid offset ts text starts) :
    ∀ start ∈ starts, ∃ first rest, text = first ++ rest ∧ rest ≠ [] ∧
      start = offset + Text.width first := by
  induction h with
  | nil => simp
  | @cons offset lines t ts text starts _ ih =>
      intro start hstart
      rcases List.mem_cons.1 hstart with rfl | hstart
      · exact ⟨List.replicate lines '\n', t.print ++ ' ' :: text, rfl, by simp, by rw [width_feeds]⟩
      · obtain ⟨first, rest, rfl, hne, rfl⟩ := ih start hstart
        refine ⟨List.replicate lines '\n' ++ (t.print ++ ' ' :: first), rest, by simp, hne, ?_⟩
        have hspace : Text.units ' ' = 1 := rfl
        simp only [Text.width_append, Text.width_cons, width_feeds, hspace]
        omega

theorem return_not_mem (h : Laid offset ts text starts) (hlegible : ∀ t ∈ ts, t.Legible) :
    '\r' ∉ text := by
  induction h with
  | nil => simp
  | cons _ ih =>
      obtain ⟨ht, hts⟩ := List.forall_mem_cons.1 hlegible
      simp [return_not_mem_print ht, ih hts]

end Laid

/-- The search only compares the target with where tokens start. -/
theorem lowerBound_congr {starts : Array Nat} {a b low high : Nat}
    (h : ∀ i < high, starts.getD i 0 < a ↔ starts.getD i 0 < b) :
    lowerBound starts a low high = lowerBound starts b low high := by
  fun_induction lowerBound starts a low high with
  | case1 low high hlt middle hbefore ih =>
      rw [ih h, lowerBound.eq_def starts b low high, if_pos hlt,
        if_pos ((h middle (by omega)).1 hbefore)]
  | case2 low high hlt middle hafter ih =>
      rw [ih fun i hi => h i (by omega), lowerBound.eq_def starts b low high, if_pos hlt,
        if_neg fun hbefore => hafter ((h middle (by omega)).2 hbefore)]
  | case3 low high hstop => rw [lowerBound.eq_def, if_neg hstop]

/-- The token at the place of a failure is found by its line and column as well. -/
theorem tokenAt_offsetOf {printed : Printed} {ts : List Terminal}
    (h : Laid 0 ts printed.text printed.starts.toList) (hlegible : ∀ t ∈ ts, t.Legible)
    (offset : Nat) :
    printed.tokenAt (offsetOf printed.text (lineColumn offset printed.text)) =
      printed.tokenAt offset := by
  refine lowerBound_congr fun i hi => ?_
  have hmem : printed.starts.getD i 0 ∈ printed.starts.toList := by
    have hlt : i < printed.starts.size := by omega
    simp [Array.getD, hlt]
  obtain ⟨first, rest, htext, hne, hstart⟩ := h.exists_part _ hmem
  have hreturn := h.return_not_mem hlegible
  rw [Nat.zero_add] at hstart
  rw [htext] at hreturn ⊢
  rw [hstart, ← Nat.not_le, ← Nat.not_le, offsetOf_le_iff hreturn hne]

end EoJava.Grammar
