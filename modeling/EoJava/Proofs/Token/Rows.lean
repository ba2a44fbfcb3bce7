import EoJava.Proofs.Text.Lines
import EoJava.Proofs.Token.Content

/-!
# Reading rows

`Lays level rows ts` says that with a number of blocks open, rows are laid out as the terminals
`ts`: a row one block deeper opens a block, and before a row less deep, or the end, the block is
closed. Rows that are laid out with no block open are read as exactly these terminals
(`source_of_lays`).
-/

namespace EoJava

open Grammar (Terminal)

/-! ## Readings -/

namespace Reading

variable {α β : Type}

/-- What comes after a reading that ends well comes after the lexemes it has met. -/
theorem ok_bind (met : List (Located Lexeme)) (result : α) (next : α → Reading β) :
    (⟨met, .ok result⟩ : Reading α) >>= next = (next result).after met :=
  rfl

theorem emit_bind (position : Position) (lexeme : Lexeme) (next : Unit → Reading β) :
    emit position lexeme >>= next = (next ()).after [⟨position, lexeme⟩] :=
  rfl

theorem bind_after (met : List (Located Lexeme)) (reading : Reading α) (next : α → Reading β) :
    reading.after met >>= next = (reading >>= next).after met := by
  rcases reading with ⟨lexemes, problem | result⟩
  · rfl
  · rw [ok_bind, after_after]
    rfl

theorem after_pure (met : List (Located Lexeme)) (result : α) :
    (pure result : Reading α).after met = ⟨met, .ok result⟩ := by
  rw [after, show (pure result : Reading α).lexemes = [] from rfl, List.append_nil]
  rfl

private theorem id_map_eq (reading : Reading α) : id <$> reading = reading := by
  rcases reading with ⟨lexemes, problem | result⟩
  · rfl
  · exact after_pure lexemes result

private theorem bind_assoc_eq {γ : Type} (reading : Reading α) (next : α → Reading β)
    (last : β → Reading γ) : reading >>= next >>= last = reading >>= fun a => next a >>= last := by
  rcases reading with ⟨lexemes, problem | result⟩
  · rfl
  · rw [ok_bind, ok_bind, bind_after]

instance : LawfulMonad Reading :=
  .mk' _ id_map_eq (fun _ _ => rfl) bind_assoc_eq

end Reading

/-! ## Lines of a source -/

namespace Text

theorem dropReturn_of_inline {line : List Char} (h : ∀ c ∈ line, IsInline c) :
    dropReturn line = line := by
  have hlast : line.getLast? ≠ some '\r' := fun hlast =>
    (h _ (List.mem_of_getLast? hlast)).2 rfl
  rw [dropReturn, if_neg hlast]

/-- A line whose first character after its indentation is visible holds something. -/
theorem holdsNothing_of_visible {c : Char} (hc : IsVisible c) (n : Nat) (cs : List Char) :
    holdsNothing (List.replicate n ' ' ++ c :: cs) = false := by
  have hspaces : ∀ d ∈ List.replicate n ' ', isBlank d := by
    intro d hd
    rw [List.eq_of_mem_replicate hd]
    decide
  rw [holdsNothing, dropWhile_run hspaces (by rintro d ⟨⟩; exact hc.1)]
  exact beq_eq_false_iff_ne.2 hc.2

/-- The indentation of a line ends at its first visible character. -/
theorem takeWhile_indentation {c : Char} (hc : IsVisible c) (n : Nat) (cs : List Char) :
    (List.replicate n ' ' ++ c :: cs).takeWhile isGap = List.replicate n ' ' := by
  refine takeWhile_run (fun d hd => ?_) (by rintro d ⟨⟩; exact hc.isGap)
  rw [List.eq_of_mem_replicate hd]
  decide

end Text

/-! ## Indentation -/

namespace Layout

/-- The widths of blocks that are open when each is two spaces wider than the one around it. -/
def openWidths : Nat → List Nat
  | 0 => []
  | level + 1 => 2 * (level + 1) :: openWidths level

@[simp]
theorem top_openWidths (level : Nat) : top (openWidths level) = 2 * level := by
  cases level <;> rfl

variable (line : Int) {level inner : Nat}

/-- Blocks are closed until the innermost one left is as wide as the line. -/
theorem close_openWidths (h : level ≤ inner) :
    ∃ met, close line (2 * level) (openWidths inner) = ⟨met, .ok (openWidths level)⟩ := by
  induction inner with
  | zero =>
      obtain rfl := Nat.le_zero.1 h
      exact ⟨[], rfl⟩
  | succ inner ih =>
      rw [openWidths, close]
      rcases Nat.le_succ_iff.1 h with h | rfl
      · obtain ⟨met, hmet⟩ := ih h
        rw [if_pos (by omega), Reading.emit_bind, hmet]
        exact ⟨_, rfl⟩
      · rw [if_neg (by omega)]
        exact ⟨[], rfl⟩

/-- A line as wide as the innermost block changes nothing. -/
theorem readWidth_same (level : Nat) :
    readWidth line (2 * level) (openWidths level) = pure (openWidths level) := by
  rw [readWidth, top_openWidths, if_neg (by omega)]
  cases level with
  | zero => rfl
  | succ level =>
      rw [openWidths, close, if_neg (by omega), pure_bind, top, if_pos rfl]

/-- A line two spaces wider than the innermost block opens one. -/
theorem readWidth_indent (level : Nat) :
    ∃ depth, readWidth line (2 * (level + 1)) (openWidths level) =
      (readWidth line (2 * (level + 1)) (openWidths (level + 1))).after
        [⟨⟨line, 1⟩, .indent depth⟩] := by
  refine ⟨(openWidths level).length + 1, ?_⟩
  rw [readWidth_same, readWidth, top_openWidths, if_pos (by omega), Reading.emit_bind]
  rfl

/-- A line no wider than the block around the innermost one closes that one. -/
theorem readWidth_dedent (h : level ≤ inner) :
    ∃ depth, readWidth line (2 * level) (openWidths (inner + 1)) =
      (readWidth line (2 * level) (openWidths inner)).after [⟨⟨line, 1⟩, .dedent depth⟩] := by
  obtain ⟨met, hmet⟩ := close_openWidths line h
  refine ⟨(openWidths inner).length, ?_⟩
  rw [readWidth, readWidth, top_openWidths, top_openWidths, if_neg (by omega), if_neg (by omega),
    openWidths, close, if_pos (by omega), Reading.emit_bind, Reading.bind_after, hmet,
    Reading.ok_bind, Reading.ok_bind, top_openWidths, if_pos rfl, if_pos rfl]

/-- Indentation by spaces suits every style but tabs. -/
theorem readStyle_spaces {style : Option Text.IndentStyle} (hstyle : style ≠ some .tabs)
    (n : Nat) : ∃ found, found ≠ some .tabs ∧ ∀ widths depth,
      (⟨style, widths, depth⟩ : Layout).readStyle line (List.replicate n ' ') = pure found := by
  cases n with
  | zero => exact ⟨style, hstyle, fun _ _ => rfl⟩
  | succ n =>
      have hforeign : firstForeign? .spaces (List.replicate (n + 1) ' ') = none := by
        rw [firstForeign?, List.findIdx?_eq_none_iff]
        intro c hc
        rw [List.eq_of_mem_replicate hc]
        decide
      have hhead : (List.replicate (n + 1) ' ').head?.bind Text.IndentStyle.ofChar? =
          some .spaces := rfl
      refine ⟨some .spaces, by simp, fun widths depth => ?_⟩
      simp only [readStyle, hhead, hforeign]
      cases style with
      | none => rfl
      | some style =>
          cases style with
          | tabs => exact absurd rfl hstyle
          | spaces => rfl

/-- The layout before a line of rows with a number of blocks open. -/
def opened (style : Option Text.IndentStyle) (level : Nat) : Layout :=
  ⟨style, openWidths level, 0⟩

end Layout

/-! ## Rows -/

/-- A row holds the lexemes of terminals: its text spells them, its first character is visible, and
it closes the parentheses that it opens. -/
structure Row.Holds (row : Row) (ts : List Terminal) : Prop where
  spells : Scan.Spells row.content ts
  visible : Text.StartsVisible row.content
  balanced : Scan.openAfter 0 ts = 0

namespace Scan

open Layout (opened openWidths readWidth)

variable (number : Int) {row : Row} {ts : List Terminal} {style : Option Text.IndentStyle}

/-- The layout is settled by the width of a row. -/
theorem enter_row (h : row.Holds ts) (hstyle : style ≠ some .tabs) :
    ∃ found, found ≠ some .tabs ∧ ∀ level, (opened style level).enter number row.text =
      readWidth number (2 * row.level) (openWidths level) >>= fun widths =>
        pure ⟨found, widths, 0⟩ := by
  obtain ⟨c, cs, hcontent, hc⟩ := h.visible
  obtain ⟨found, hfound, hread⟩ := Layout.readStyle_spaces number hstyle (2 * row.level)
  have hspace := Text.takeWhile_indentation hc (2 * row.level) cs
  refine ⟨found, hfound, fun level => ?_⟩
  rw [Row.text, hcontent, Layout.enter, Text.indentWidth, hspace, List.length_replicate, opened,
    hread, pure_bind]

/-- The lexemes of a line once its layout is settled. -/
def settled (number : Int) (text : List Char) (layout : Layout) : Reading Layout := do
  let depth ← content number layout.depth (.start text)
  if depth = 0 then Reading.emit ⟨number, Text.width text + 1⟩ .newline
  pure { layout with depth }

/-- A row that starts outside parentheses settles the layout first. -/
theorem line_row (h : row.Holds ts) (level : Nat) :
    line number (opened style level) row.text =
      (opened style level).enter number row.text >>= settled number row.text := by
  obtain ⟨c, cs, hcontent, hc⟩ := h.visible
  have hholds : Text.holdsNothing row.text = false := by
    rw [Row.text, hcontent, Text.holdsNothing_of_visible hc]
  rw [line, hholds]
  rfl

/-- A row one block deeper opens a block. -/
theorem line_indent {level : Nat} (h : row.Holds ts) (hstyle : style ≠ some .tabs)
    (hlevel : row.level = level + 1) :
    ∃ depth, line number (opened style level) row.text =
      (line number (opened style (level + 1)) row.text).after [⟨⟨number, 1⟩, .indent depth⟩] := by
  obtain ⟨found, -, henter⟩ := enter_row number h hstyle
  obtain ⟨depth, hwidth⟩ := Layout.readWidth_indent number level
  refine ⟨depth, ?_⟩
  rw [line_row number h, line_row number h, henter, henter, hlevel, hwidth, Reading.bind_after,
    Reading.bind_after]

/-- A row less deep closes a block. -/
theorem line_dedent {level : Nat} (h : row.Holds ts) (hstyle : style ≠ some .tabs)
    (hlevel : row.level ≤ level) :
    ∃ depth, line number (opened style (level + 1)) row.text =
      (line number (opened style level) row.text).after [⟨⟨number, 1⟩, .dedent depth⟩] := by
  obtain ⟨found, -, henter⟩ := enter_row number h hstyle
  obtain ⟨depth, hwidth⟩ := Layout.readWidth_dedent number hlevel
  refine ⟨depth, ?_⟩
  rw [line_row number h, line_row number h, henter, henter, hwidth, Reading.bind_after,
    Reading.bind_after]

theorem content_spaces (n : Nat) (line : Int) (depth : Nat) (rest : List Char) (offset : Nat) :
    ∃ after, content line depth ⟨List.replicate n ' ' ++ rest, offset⟩ =
      content line depth ⟨rest, after⟩ := by
  induction n generalizing offset with
  | zero => exact ⟨offset, rfl⟩
  | succ n ih =>
      obtain ⟨after, h⟩ := ih (offset + 1)
      exact ⟨after, (content_space _).trans h⟩

theorem content_nil (line : Int) (depth offset : Nat) :
    content line depth ⟨[], offset⟩ = pure depth := by
  rw [content]

/-- A row of the innermost block is read as the terminals that it holds, and its line end. -/
theorem line_same (h : row.Holds ts) (hstyle : style ≠ some .tabs) :
    ∃ met found, found ≠ some .tabs ∧ met.map (·.value.terminal) = ts ++ [.newline] ∧
      line number (opened style row.level) row.text = ⟨met, .ok (opened found row.level)⟩ := by
  obtain ⟨found, hfound, henter⟩ := enter_row number h hstyle
  obtain ⟨start, hspaces⟩ := content_spaces (2 * row.level) number 0 row.content 0
  obtain ⟨met, after, hmet, hcontent⟩ := h.spells.reads number 0 start [] Lexing.apart_nil
  rw [List.append_nil, h.balanced, content_nil, Reading.after_pure] at hcontent
  refine ⟨met ++ [⟨⟨number, Text.width row.text + 1⟩, .newline⟩], found, hfound,
    by rw [List.map_append, hmet]; rfl, ?_⟩
  rw [line_row number h, henter, Layout.readWidth_same, pure_bind, pure_bind, settled,
    Text.Cursor.start, Row.text, hspaces, hcontent, Reading.ok_bind, if_pos rfl, Reading.emit_bind,
    Reading.after_pure]
  rfl

/-! ## Sources -/

/-- With a number of blocks open, rows are laid out as terminals up to the end of the source. -/
inductive Lays : Nat → List Row → List Terminal → Prop where
  | nil : Lays 0 [] []
  | row {row rows ts us} (hrow : row.Holds ts) (h : Lays row.level rows us) :
      Lays row.level (row :: rows) (ts ++ .newline :: us)
  | indent {level row rows us} (hlevel : row.level = level + 1)
      (h : Lays (level + 1) (row :: rows) us) : Lays level (row :: rows) (.indent :: us)
  | dedent {level rows us} (hlevel : ∀ row ∈ rows.head?, row.level ≤ level)
      (h : Lays level rows us) : Lays (level + 1) rows (.dedent :: us)

/-- Every row that is laid out holds terminals. -/
theorem Lays.holds {level : Nat} {rows : List Row} {us : List Terminal} (h : Lays level rows us) :
    ∀ row ∈ rows, ∃ ts, row.Holds ts := by
  induction h with
  | nil => exact fun _ h => absurd h List.not_mem_nil
  | row hrow _ ih => exact List.forall_mem_cons.2 ⟨⟨_, hrow⟩, ih⟩
  | indent _ _ ih | dedent _ _ ih => exact ih

/-- The lexemes of the lines that are left and of the end of the source. -/
def rest (number : Int) (layout : Layout) (texts : List (List Char)) : Reading Unit := do
  let (last, layout) ← lines number layout texts
  closeAll last layout.widths
  Reading.emit ⟨last, 1⟩ .endOfInput

theorem rest_cons (number : Int) (layout : Layout) (text : List Char) (texts : List (List Char)) :
    rest number layout (text :: texts) =
      line number layout text >>= fun layout => rest (number + 1) layout texts := by
  rw [rest, lines, bind_assoc]
  rfl

/-- After the last line there is only the empty text. -/
theorem rest_end (number : Int) (layout : Layout) :
    rest number layout [[]] = closeAll (number + 1 - 1) layout.widths >>= fun _ =>
      Reading.emit ⟨number + 1 - 1, 1⟩ .endOfInput :=
  rfl

/-- The end of the source closes the blocks that are open, the innermost first. -/
theorem rest_end_dedent (number : Int) (style : Option Text.IndentStyle) (level : Nat) :
    ∃ position depth, rest number (opened style (level + 1)) [[]] =
      (rest number (opened style level) [[]]).after [⟨position, .dedent depth⟩] := by
  refine ⟨⟨number + 1 - 1, 1⟩, (openWidths level).length, ?_⟩
  rw [rest_end, rest_end]
  simp only [opened, openWidths, closeAll, Reading.emit_bind, Reading.bind_after]

/-- Rows that are laid out as terminals are read as these, up to the end of the source. -/
theorem Lays.reads {level : Nat} {rows : List Row} {us : List Terminal} (h : Lays level rows us)
    (number : Int) {style : Option Text.IndentStyle} (hstyle : style ≠ some .tabs) :
    ∃ met, met.map (·.value.terminal) = us ++ [.endOfInput] ∧
      rest number (opened style level) (rows.map Row.text ++ [[]]) = ⟨met, .ok ()⟩ := by
  induction h generalizing number style with
  | nil => exact ⟨_, rfl, rfl⟩
  | @row row rows ts us hrow _ ih =>
      obtain ⟨met, found, hfound, hmet, hline⟩ := line_same number hrow hstyle
      obtain ⟨later, hlater, hrest⟩ := ih (number + 1) hfound
      refine ⟨met ++ later, by simp [hmet, hlater], ?_⟩
      rw [List.map_cons, List.cons_append, rest_cons, hline, Reading.ok_bind, hrest]
      rfl
  | @indent level row rows us hlevel h ih =>
      obtain ⟨ts, hrow⟩ := h.holds row (by simp)
      obtain ⟨depth, hline⟩ := line_indent number hrow hstyle hlevel
      obtain ⟨met, hmet, hrest⟩ := ih number hstyle
      refine ⟨⟨⟨number, 1⟩, .indent depth⟩ :: met, by rw [List.map_cons, hmet]; rfl, ?_⟩
      rw [List.map_cons, List.cons_append, rest_cons] at hrest ⊢
      rw [hline, Reading.bind_after, hrest]
      rfl
  | @dedent level rows us hlevel h ih =>
      obtain ⟨met, hmet, hrest⟩ := ih number hstyle
      -- A block closes before the next row, or at the end of the source if there is none.
      cases rows with
      | nil =>
          obtain ⟨position, depth, hend⟩ := rest_end_dedent number style level
          refine ⟨⟨position, .dedent depth⟩ :: met, by rw [List.map_cons, hmet]; rfl, ?_⟩
          rw [List.map_nil, List.nil_append] at hrest ⊢
          rw [hend, hrest]
          rfl
      | cons row rows =>
          obtain ⟨ts, hrow⟩ := h.holds row (by simp)
          obtain ⟨depth, hline⟩ := line_dedent number hrow hstyle (hlevel row rfl)
          refine ⟨⟨⟨number, 1⟩, .dedent depth⟩ :: met, by rw [List.map_cons, hmet]; rfl, ?_⟩
          rw [List.map_cons, List.cons_append, rest_cons] at hrest ⊢
          rw [hline, Reading.bind_after, hrest]
          rfl

/-- The lines of rows are their texts, and an empty line at the end. -/
theorem lines_rows {rows : List Row} (h : ∀ row ∈ rows, ∃ ts, row.Holds ts) :
    Text.lines (rows.flatMap Row.line) = rows.map Row.text ++ [[]] := by
  induction rows with
  | nil => rfl
  | cons row rows ih =>
      obtain ⟨⟨ts, hrow⟩, hrows⟩ := List.forall_mem_cons.1 h
      have hinline : ∀ c ∈ row.text, Text.IsInline c := by
        refine List.forall_mem_append.2 ⟨fun c hc => ?_, hrow.spells.inline⟩
        rw [List.eq_of_mem_replicate hc]
        decide
      have hsplit := Text.splitLines_append (fun hmem => (hinline _ hmem).1 rfl) (rows.flatMap Row.line)
      have hlines := ih hrows
      rw [Text.lines] at hlines ⊢
      rw [List.flatMap_cons, Row.line, List.append_assoc, List.singleton_append, hsplit,
        List.map_cons, hlines, Text.dropReturn_of_inline hinline]
      rfl

/-- A row does not start with a byte order mark. -/
theorem dropMark_rows {rows : List Row} (h : ∀ row ∈ rows, ∃ ts, row.Holds ts) :
    Text.dropMark (rows.flatMap Row.line) = rows.flatMap Row.line := by
  cases rows with
  | nil => rfl
  | cons row rows =>
      obtain ⟨ts, hrow⟩ := h row (by simp)
      obtain ⟨c, cs, hcontent, hc⟩ := hrow.visible
      have hmark : c ≠ '\uFEFF' := by
        rintro rfl
        exact absurd hc.1 (by decide)
      rw [List.flatMap_cons, Row.line, Row.text, hcontent]
      cases row.level with
      | zero => simp [Text.dropMark, hmark]
      | succ level => rfl

/-- A source of rows that are laid out as terminals is read as these. -/
theorem source_of_lays {rows : List Row} {us : List Terminal} (h : Lays 0 rows us) :
    ∃ met, met.map (·.value.terminal) = us ++ [.endOfInput] ∧
      source (rows.flatMap Row.line) = ⟨met, .ok ()⟩ := by
  obtain ⟨met, hmet, hrest⟩ := h.reads 1 (by simp : none ≠ some Text.IndentStyle.tabs)
  refine ⟨met, hmet, ?_⟩
  rw [← hrest, ← lines_rows h.holds, source, dropMark_rows h.holds]
  rfl

end Scan

end EoJava
