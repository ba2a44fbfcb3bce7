import EoJava.Proofs.Token.Blocks

/-!
# The order of positions

Positions are ordered by line, and on one line by column. The lexemes of the lines of a source go
forward, whether or not the scan stops (`forward_lines`). What closes a source stands at the start
of its last line (`exists_parts`), so it goes back if a lexeme stands further right on that line
(`forward_source_iff`).
-/

namespace EoJava

/-! ## Positions -/

namespace Position

/-- A position is not after another one: it is on an earlier line, or on the same line and not
further right. -/
instance : LE Position where
  le first second :=
    first.line < second.line ∨ first.line = second.line ∧ first.column ≤ second.column

variable {first second : Position}

theorem le_iff : first ≤ second ↔
    first.line < second.line ∨ first.line = second.line ∧ first.column ≤ second.column :=
  Iff.rfl

instance : DecidableLE Position :=
  fun _ _ => decidable_of_iff _ le_iff.symm

theorem le_refl (position : Position) : position ≤ position :=
  .inr ⟨rfl, Int.le_refl _⟩

theorem line_le (h : first ≤ second) : first.line ≤ second.line := by
  rcases h with h | ⟨h, -⟩ <;> omega

theorem le_trans {third : Position} (h : first ≤ second) (h' : second ≤ third) :
    first ≤ third := by
  rw [le_iff] at *
  omega

/-- On one line the columns decide. -/
theorem le_of_column {line column other : Int} (h : column ≤ other) :
    (⟨line, column⟩ : Position) ≤ ⟨line, other⟩ :=
  .inr ⟨rfl, h⟩

end Position

/-! ## Readings -/

namespace Reading

variable {α β : Type}

/-- The places of the lexemes of a reading. -/
def positions (reading : Reading α) : List Position :=
  reading.lexemes.map (·.position)

/-- The lexemes of a reading go forward. -/
def Forward (reading : Reading α) : Prop :=
  reading.positions.Pairwise (· ≤ ·)

theorem forward_pure (a : α) : (pure a : Reading α).Forward :=
  .nil

theorem forward_emit (position : Position) (lexeme : Lexeme) : (emit position lexeme).Forward :=
  List.pairwise_singleton ..

/-- A reading goes forward after another one if it meets nothing before what the other has met. -/
theorem Forward.bind {first : Reading α} {next : α → Reading β} (hfirst : first.Forward)
    (hnext : ∀ a, first.outcome = .ok a → (next a).Forward)
    (hle : ∀ a, first.outcome = .ok a → ∀ earlier ∈ first.lexemes, ∀ later ∈ (next a).lexemes,
      earlier.position ≤ later.position) : (first >>= next).Forward := by
  rcases first with ⟨met, problem | a⟩
  · exact hfirst
  · show List.Pairwise _ ((met ++ (next a).lexemes).map (·.position))
    rw [List.map_append]
    refine List.pairwise_append.2 ⟨hfirst, hnext a rfl, ?_⟩
    exact List.forall_mem_map.2 fun earlier hearlier =>
      List.forall_mem_map.2 (hle a rfl earlier hearlier)

/-- Lexemes at one place go forward. -/
theorem pairwise_of_at {lexemes : List (Located Lexeme)} {position : Position}
    (h : ∀ found ∈ lexemes, found.position = position) :
    (lexemes.map (·.position)).Pairwise (· ≤ ·) := by
  refine List.pairwise_of_forall_mem_list ?_
  refine List.forall_mem_map.2 fun first hfirst => List.forall_mem_map.2 fun second hsecond => ?_
  rw [h first hfirst, h second hsecond]
  exact Position.le_refl position

end Reading

/-! ## Lines -/

namespace Scan

variable {number : Int} {text : List Char} {found : Located Lexeme}

/-- A line starts at its first column, and its end is past all other lexemes. -/
theorem Gives.column (h : Gives number text found) :
    1 ≤ found.position.column ∧ found.position.column ≤ Text.width text + 1 := by
  cases h with
  | layout h => cases h <;> exact ⟨Int.le_refl 1, show (1 : Int) ≤ Text.width text + 1 by omega⟩
  | newline => exact ⟨show (1 : Int) ≤ Text.width text + 1 by omega, Int.le_refl _⟩
  | @lexeme c rest offset _ _ hhere _ =>
      obtain ⟨before, rfl, hoffset⟩ := hhere
      have hwidth : offset ≤ Text.width (before ++ c :: rest) := by
        rw [Text.width_append, ← hoffset]
        exact Nat.le_add_right _ _
      show (1 : Int) ≤ offset + 1 ∧ (offset : Int) + 1 ≤ Text.width (before ++ c :: rest) + 1
      omega

/-- The lexemes of a line go forward from where the cursor stands. -/
theorem forward_content (number : Int) (depth : Nat) (cursor : Text.Cursor) :
    (∀ found ∈ (content number depth cursor).lexemes,
        (⟨number, cursor.offset + 1⟩ : Position) ≤ found.position) ∧
      (content number depth cursor).Forward := by
  fun_induction content number depth cursor with
  | case1 => exact ⟨List.forall_mem_nil _, .nil⟩
  | case2 depth cursor c rest hrest hgap ih =>
      refine ⟨fun found hfound => ?_, ih.2⟩
      refine Position.le_trans (Position.le_of_column ?_) (ih.1 found hfound)
      push_cast
      omega
  | case3 => exact ⟨List.forall_mem_nil _, .nil⟩
  | case4 depth cursor c rest hrest hgap hcomment lexeme after hmet ih =>
      obtain ⟨spelled, -, hoffset, -⟩ := Lexing.spelledBy_of_next? hmet
      have hafter : ∀ later ∈ (content number (lexeme.depthAfter depth) after).lexemes,
          (⟨number, cursor.offset + 1⟩ : Position) ≤ later.position := by
        refine fun later hlater => Position.le_trans (Position.le_of_column ?_) (ih.1 later hlater)
        omega
      refine ⟨List.forall_mem_cons.2 ⟨Position.le_refl _, hafter⟩, ?_⟩
      refine (Reading.forward_emit _ _).bind (fun _ _ => ih.2) fun _ _ earlier hearlier => ?_
      rw [List.mem_singleton.1 hearlier]
      exact hafter
  | case5 => exact ⟨List.forall_mem_nil _, .nil⟩

theorem forward_settled (number : Int) (text : List Char) (layout : Layout) :
    (settled number text layout).Forward := by
  rw [settled_eq]
  refine (forward_content number layout.depth (.start text)).2.bind (fun depth _ => ?_)
    fun depth _ earlier hearlier later hlater => ?_
  · split
    · exact List.pairwise_singleton ..
    · exact .nil
  · have hgives := (within_content number layout.depth
      (Text.Cursor.standsIn_start text)).lexemes earlier hearlier
    split at hlater
    · rw [List.mem_singleton.1 hlater]
      exact .inr ⟨hgives.line, hgives.column.2⟩
    · cases hlater

/-- What settles the layout stands at the start of the line, before its other lexemes. -/
theorem forward_line (number : Int) (layout : Layout) (text : List Char) :
    (line number layout text).Forward := by
  cases hbare : Text.holdsNothing text with
  | true =>
      rw [line_of_bare number layout hbare]
      exact Reading.forward_pure _
  | false =>
      by_cases hdepth : layout.depth = 0
      · have hstart : ∀ found ∈ (layout.enter number text).lexemes,
            found.position = ⟨number, 1⟩ := by
          intro found hfound
          cases (Layout.within_enter number layout text).lexemes found hfound <;> rfl
        rw [line_of_outside number hbare hdepth]
        refine Reading.Forward.bind (Reading.pairwise_of_at hstart)
          (fun _ _ => forward_settled _ _ _) fun entered _ earlier hearlier later hlater => ?_
        have hgives := (within_settled number text entered).lexemes later hlater
        rw [hstart earlier hearlier]
        exact .inr ⟨hgives.line.symm, hgives.column.1⟩
      · rw [line_of_inside number hbare hdepth]
        exact forward_settled number text layout

/-- The lexemes of a run of lines go forward. -/
theorem forward_lines (number : Int) (layout : Layout) (texts : List (List Char)) :
    (lines number layout texts).Forward := by
  induction texts generalizing number layout with
  | nil => exact Reading.forward_pure _
  | cons text texts ih =>
      refine (forward_line number layout text).bind (fun _ _ => ih _ _)
        fun entered _ earlier hearlier later hlater => .inl ?_
      rw [((within_line number layout text).lexemes earlier hearlier).line]
      have := ((on_lines (number + 1) entered texts).lexemes later hlater).1
      omega

/-- Lines that hold nothing have no lexemes. -/
theorem visible_lines (number : Int) (layout : Layout) (texts : List (List Char)) :
    (lines number layout texts).Within
      (Among (fun number text found => Text.holdsNothing text = false ∧
        found.position.line = number) number texts) fun _ => True := by
  refine (within_lines_of (Q := fun _ _ _ => True) (fun number layout text => ?_) number layout
    texts).imp (fun _ h => h) fun _ _ => trivial
  cases hbare : Text.holdsNothing text with
  | true =>
      rw [line_of_bare number layout hbare]
      exact Reading.within_pure _
  | false =>
      exact (within_line number layout text).imp (fun _ h => ⟨rfl, h.line⟩) fun _ _ => trivial

/-! ## Sources -/

/-- The number of the last line of a source. -/
def lastLine (source : List Char) : Int :=
  (Text.lines (Text.dropMark source)).length

/-- The lexemes of a source are those of its lines and, if the scan does not stop, those that close
it. The former go forward, and the latter stand at the start of the last line. -/
structure Parts (source : List Char) (met closing : List (Located Lexeme)) : Prop where
  eq : (Scan.source source).lexemes = met ++ closing
  lines : ∃ outcome, lines 1 {} (Text.lines (Text.dropMark source)) = ⟨met, outcome⟩
  start : ∀ found ∈ closing, found.position = ⟨lastLine source, 1⟩
  ends : (Scan.source source).outcome = .ok () ∧ Closing closing ∨
    (∃ problem, (Scan.source source).outcome = .error problem) ∧ closing = []

theorem exists_parts (source : List Char) : ∃ met closing, Parts source met closing := by
  obtain ⟨met, problem, hlines, hsource⟩ | ⟨met, last, layout, hlines, hsource⟩ :=
    source_eq_lines source
  · refine ⟨met, [], ?_, ⟨_, hlines⟩, List.forall_mem_nil _, .inr ⟨⟨problem, ?_⟩, rfl⟩⟩
    · rw [hsource, List.append_nil]
    · rw [hsource]
  · obtain rfl : last = lastLine source := by
      rw [last_of_lines hlines, lastLine]
      omega
    have hdedents := (within_closeAll (Q := fun _ => True) (lastLine source) layout.widths).lexemes
    refine ⟨met, _, by rw [hsource], ⟨_, hlines⟩, ?_, .inl ⟨by rw [hsource], _, _, rfl, ?_⟩⟩
    · refine List.forall_mem_append.2 ⟨fun found hfound => ?_, List.forall_mem_singleton.2 rfl⟩
      obtain ⟨depth, rfl⟩ := hdedents found hfound
      rfl
    · intro found hfound
      obtain ⟨depth, rfl⟩ := hdedents found hfound
      rfl

namespace Parts

variable {source : List Char} {met closing : List (Located Lexeme)}

theorem forward (h : Parts source met closing) : (met.map (·.position)).Pairwise (· ≤ ·) := by
  obtain ⟨outcome, hlines⟩ := h.lines
  have hforward := forward_lines 1 {} (Text.lines (Text.dropMark source))
  rwa [hlines] at hforward

theorem line_le (h : Parts source met closing) :
    ∀ found ∈ met, found.position.line ≤ lastLine source := by
  obtain ⟨outcome, hlines⟩ := h.lines
  intro found hfound
  have hline := ((on_lines 1 {} (Text.lines (Text.dropMark source))).lexemes found
    (by rwa [hlines])).2
  rw [lastLine]
  omega

theorem column_pos (h : Parts source met closing) :
    ∀ found ∈ met, 1 ≤ found.position.column := by
  obtain ⟨outcome, hlines⟩ := h.lines
  intro found hfound
  obtain ⟨_, _, -, hgives⟩ :=
    (within_lines 1 {} (Text.lines (Text.dropMark source))).lexemes found (by rwa [hlines])
  exact hgives.column.1

/-- Nothing is met on a last line that holds nothing. -/
theorem line_ne (h : Parts source met closing)
    (hbare : ∀ text ∈ (Text.lines (Text.dropMark source)).getLast?, Text.holdsNothing text) :
    ∀ found ∈ met, found.position.line ≠ lastLine source := by
  obtain ⟨outcome, hlines⟩ := h.lines
  intro found hfound hlast
  obtain ⟨i, text, hget, hvisible, hline⟩ :=
    (visible_lines 1 {} (Text.lines (Text.dropMark source))).lexemes found (by rwa [hlines])
  rw [hline, lastLine] at hlast
  have hi : i = (Text.lines (Text.dropMark source)).length - 1 := by omega
  rw [hi, ← List.getLast?_eq_getElem?] at hget
  rw [hbare text hget] at hvisible
  cases hvisible

/-- The lexemes of a source never go back to an earlier line. -/
theorem lines_forward (h : Parts source met closing) :
    ((Scan.source source).lexemes.map (·.position.line)).Pairwise (· ≤ ·) := by
  have hlast : ∀ found ∈ closing, found.position.line = lastLine source :=
    fun found hfound => congrArg Position.line (h.start found hfound)
  -- What closes the source may go back on the last line, but not to an earlier one.
  rw [h.eq, List.map_append]
  refine List.pairwise_append.2 ⟨?_, ?_, ?_⟩
  · exact List.pairwise_map.2 ((List.pairwise_map.1 h.forward).imp Position.line_le)
  · rw [List.map_congr_left hlast, List.map_const']
    exact List.pairwise_replicate.2 (.inr (Int.le_refl _))
  · refine List.forall_mem_map.2 fun earlier hearlier =>
      List.forall_mem_map.2 fun later hlater => ?_
    rw [hlast later hlater]
    exact h.line_le earlier hearlier

/-- A source goes forward if all that is met on its last line is at the start of it. -/
theorem forward_of_start (h : Parts source met closing)
    (hstart : ∀ found ∈ met, found.position.line = lastLine source → found.position.column = 1) :
    (Scan.source source).Forward := by
  rw [Reading.Forward, Reading.positions, h.eq, List.map_append]
  refine List.pairwise_append.2 ⟨h.forward, Reading.pairwise_of_at h.start, ?_⟩
  refine List.forall_mem_map.2 fun earlier hearlier => List.forall_mem_map.2 fun later hlater => ?_
  rw [h.start later hlater]
  rcases Int.lt_or_eq_of_le (h.line_le earlier hearlier) with hlt | heq
  · exact .inl hlt
  · exact .inr ⟨heq, Int.le_of_eq (hstart earlier hearlier heq)⟩

end Parts

/-- The lexemes of a source go forward exactly if the scan stops, or all of them that are on the
last line are at the start of it. -/
theorem forward_source_iff (source : List Char) : (Scan.source source).Forward ↔
    (∃ problem, (Scan.source source).outcome = .error problem) ∨
      ∀ found ∈ (Scan.source source).lexemes, found.position.line = lastLine source →
        found.position.column = 1 := by
  obtain ⟨met, closing, h⟩ := exists_parts source
  constructor
  · intro hforward
    obtain ⟨-, dedents, position, rfl, -⟩ | ⟨hstopped, -⟩ := h.ends
    · refine .inr fun found hfound hline => ?_
      rw [h.eq] at hfound
      rcases List.mem_append.1 hfound with hmet | hclosing
      · -- The end of the source is met after it, at the start of the line.
        have hend : (⟨position, .endOfInput⟩ : Located Lexeme) ∈
            dedents ++ [⟨position, .endOfInput⟩] := by simp
        rw [Reading.Forward, Reading.positions, h.eq, List.map_append] at hforward
        have hle := (List.pairwise_append.1 hforward).2.2 _ (List.mem_map_of_mem hmet) _
          (List.mem_map_of_mem hend)
        rw [h.start _ hend] at hle
        have hpos := h.column_pos found hmet
        rcases hle with hlt | ⟨-, hcolumn⟩
        · exact absurd hline (Int.ne_of_lt hlt)
        · exact Int.le_antisymm hcolumn hpos
      · rw [h.start found hclosing]
    · exact .inl hstopped
  · rintro (⟨problem, hstopped⟩ | hstart)
    · obtain ⟨hread, -⟩ | ⟨-, rfl⟩ := h.ends
      · rw [hread] at hstopped
        cases hstopped
      · rw [Reading.Forward, Reading.positions, h.eq, List.append_nil]
        exact h.forward
    · refine h.forward_of_start fun found hfound => hstart found ?_
      rw [h.eq]
      exact List.mem_append_left _ hfound

/-- The lexemes of a source go forward if its last line holds nothing. -/
theorem forward_source_of_bare {source : List Char}
    (h : ∀ text ∈ (Text.lines (Text.dropMark source)).getLast?, Text.holdsNothing text) :
    (Scan.source source).Forward := by
  obtain ⟨met, closing, hparts⟩ := exists_parts source
  exact hparts.forward_of_start fun found hfound hline =>
    absurd hline (hparts.line_ne h found hfound)

end Scan

end EoJava
