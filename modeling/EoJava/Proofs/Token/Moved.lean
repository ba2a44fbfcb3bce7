import EoJava.Proofs.Syntax.Mapped
import EoJava.Proofs.Token.Offside

/-!
# Lines at other places

The number of a line counts for nothing but the positions of what is met on it
(`Scan.move_content`, `Scan.move_line`, `Scan.move_rest`). So what comes of a source to which a bare
line is added is what comes of it alone, with everything from that line on one line further down
(`Scan.rest_insert`).
-/

namespace EoJava

open Grammar (Terminal)

/-- A position on the line that `f` makes of its own. -/
def Position.move (f : Int → Int) (position : Position) : Position :=
  { position with line := f position.line }

/-- A located value on the line that `f` makes of its own. -/
def Located.move {α : Type} (f : Int → Int) (found : Located α) : Located α :=
  found.relocate (Position.move f)

/-- Moving a value to another line does not change it. -/
@[simp]
theorem Located.value_move {α : Type} (f : Int → Int) (found : Located α) :
    (found.move f).value = found.value :=
  rfl

/-- The number that a line has after another one is put before the line `limit`. -/
def Scan.pushed (limit number : Int) : Int :=
  if number < limit then number else number + 1

/-- Lines before the new one keep their numbers. -/
theorem Scan.pushed_of_lt {limit number : Int} (h : number < limit) :
    pushed limit number = number :=
  if_pos h

/-- The line at the place of the new one and all after it are one further down. -/
theorem Scan.pushed_of_le {limit number : Int} (h : limit ≤ number) :
    pushed limit number = number + 1 :=
  if_neg (Int.not_lt.2 h)

variable {f : Int → Int}

/-! ## Readings -/

namespace Reading

variable {α β : Type}

/-- A reading with everything that is met on the line that `f` makes of its own. -/
def move (f : Int → Int) (reading : Reading α) : Reading α :=
  ⟨reading.lexemes.map (Located.move f), reading.outcome.mapError (Located.move f)⟩

/-- Nothing is met, so nothing is moved. -/
@[simp]
theorem move_pure (a : α) : (pure a : Reading α).move f = pure a :=
  rfl

/-- What was met is moved, and the result is kept. -/
@[simp]
theorem move_ok (met : List (Located Lexeme)) (a : α) :
    (⟨met, .ok a⟩ : Reading α).move f = ⟨met.map (Located.move f), .ok a⟩ :=
  rfl

/-- A lexeme is moved to its other line. -/
@[simp]
theorem move_emit (position : Position) (lexeme : Lexeme) :
    (emit position lexeme).move f = emit (position.move f) lexeme :=
  rfl

/-- A problem is moved to its other line. -/
@[simp]
theorem move_fail (position : Position) (problem : Problem) :
    (fail position problem : Reading α).move f = fail (position.move f) problem :=
  rfl

/-- Two readings in turn are moved one by one. -/
@[simp]
theorem move_bind (first : Reading α) (next : α → Reading β) :
    (first >>= next).move f = first.move f >>= fun a => (next a).move f := by
  rcases first with ⟨met, problem | a⟩
  · rfl
  · rw [ok_bind, move_ok, ok_bind]
    simp [move, after]

end Reading

/-! ## Layout -/

namespace Layout

/-- The style of a line does not depend on its number. -/
theorem move_readStyle (layout : Layout) (number : Int) (space : List Char) :
    (layout.readStyle number space).move f = layout.readStyle (f number) space := by
  unfold readStyle
  split
  · rfl
  · split
    · rfl
    · split
      · rfl
      · split <;> rfl

/-- The blocks that a line closes do not depend on its number. -/
theorem move_close (number : Int) (width : Nat) (widths : List Nat) :
    (close number width widths).move f = close (f number) width widths := by
  induction widths with
  | nil => rfl
  | cons top widths ih =>
      rw [close, close]
      split
      · rw [Reading.move_bind, ih]
        rfl
      · rfl

/-- The blocks that a line opens or closes do not depend on its number. -/
theorem move_readWidth (number : Int) (width : Nat) (widths : List Nat) :
    (readWidth number width widths).move f = readWidth (f number) width widths := by
  unfold readWidth
  split
  · rfl
  · rw [Reading.move_bind, move_close]
    refine bind_congr fun remaining => ?_
    split <;> rfl

/-- The layout of a line does not depend on its number. -/
theorem move_enter (layout : Layout) (number : Int) (text : List Char) :
    (layout.enter number text).move f = layout.enter (f number) text := by
  unfold enter
  simp only [Reading.move_bind, move_readStyle, move_readWidth, Reading.move_pure]

end Layout

/-! ## Lines -/

namespace Scan

/-- The content of a line by its next character: a space, a comment, or the start of a lexeme. -/
theorem content_cons (number : Int) (depth : Nat) (c : Char) (rest : List Char) (offset : Nat) :
    content number depth ⟨c :: rest, offset⟩ =
      if Text.isGap c then content number depth ⟨rest, offset + 1⟩
      else if c = '#' then pure depth
      else
        match Lexing.next? c rest offset with
        | .ok (lexeme, after) =>
          Reading.emit ⟨number, offset + 1⟩ lexeme >>= fun _ =>
            content number (lexeme.depthAfter depth) after
        | .error (place, problem) => .fail ⟨number, place + 1⟩ problem := by
  rw [content]
  dsimp only
  split
  · rfl
  · split
    · rfl
    · split <;>
      · next hmet => rw [hmet]

/-- The content of a line does not depend on its number. -/
theorem move_content (number : Int) (depth : Nat) (cursor : Text.Cursor) :
    (content number depth cursor).move f = content (f number) depth cursor := by
  fun_induction content number depth cursor with
  | case1 depth cursor hrest =>
      obtain ⟨_, offset⟩ := cursor
      obtain rfl : _ = [] := hrest
      rw [content_nil]
      rfl
  | case2 depth cursor c rest hrest hgap ih =>
      obtain ⟨_, offset⟩ := cursor
      obtain rfl : _ = c :: rest := hrest
      rw [content_cons, if_pos hgap, ih]
  | case3 depth cursor rest hrest hgap =>
      obtain ⟨_, offset⟩ := cursor
      obtain rfl : _ = '#' :: rest := hrest
      rw [content_cons, if_neg hgap, if_pos rfl]
      rfl
  | case4 depth cursor c rest hrest hgap hcomment lexeme after hmet ih =>
      obtain ⟨_, offset⟩ := cursor
      obtain rfl : _ = c :: rest := hrest
      have hnext : Lexing.next? c rest offset = .ok (lexeme, after) := hmet
      rw [content_cons, if_neg hgap, if_neg hcomment, hnext, Reading.move_bind, ih]
      rfl
  | case5 depth cursor c rest hrest hgap hcomment place problem hmet =>
      obtain ⟨_, offset⟩ := cursor
      obtain rfl : _ = c :: rest := hrest
      have hnext : Lexing.next? c rest offset = .error (place, problem) := hmet
      rw [content_cons, if_neg hgap, if_neg hcomment, hnext]
      rfl

/-- What is met on a settled line does not depend on its number. -/
theorem move_settled (number : Int) (text : List Char) (layout : Layout) :
    (settled number text layout).move f = settled (f number) text layout := by
  rw [settled_eq, settled_eq, Reading.move_bind, move_content]
  refine bind_congr fun depth => ?_
  rw [Reading.move_ok]
  split <;> rfl

/-- The number of a line counts for nothing but the positions of what is met on it. -/
theorem move_line (number : Int) (layout : Layout) (text : List Char) :
    (line number layout text).move f = line (f number) layout text := by
  cases hbare : Text.holdsNothing text with
  | true =>
      rw [line_of_bare _ _ hbare, line_of_bare _ _ hbare]
      rfl
  | false =>
      by_cases hdepth : layout.depth = 0
      · rw [line_of_outside _ hbare hdepth, line_of_outside _ hbare hdepth, Reading.move_bind,
          Layout.move_enter]
        exact bind_congr fun entered => move_settled number text entered
      · rw [line_of_inside _ hbare hdepth, line_of_inside _ hbare hdepth]
        exact move_settled number text layout

/-- The blocks that the end of a source closes do not depend on its number. -/
theorem move_closeAll (number : Int) (widths : List Nat) :
    (closeAll number widths).move f = closeAll (f number) widths := by
  induction widths with
  | nil => rfl
  | cons width widths ih =>
      rw [closeAll, Reading.move_bind, ih]
      rfl

/-! ## Sources -/

/-- Behind the last line, all blocks are closed and the source ends. -/
theorem rest_nil (number : Int) (layout : Layout) :
    rest number layout [] = closeAll (number - 1) layout.widths >>= fun _ =>
      Reading.emit ⟨number - 1, 1⟩ .endOfInput :=
  rfl

/-- The end of a source is on its last line. -/
theorem move_end (number : Int) (layout : Layout) :
    (rest number layout []).move f = rest (f (number - 1) + 1) layout [] := by
  rw [rest_nil, rest_nil, Reading.move_bind, move_closeAll, Int.add_sub_cancel]
  rfl

/-- What comes of lines is what comes of them at another place. -/
theorem move_rest {number offset : Int} (h : ∀ n, number ≤ n → f n = n + offset) (layout : Layout)
    (text : List Char) (texts : List (List Char)) :
    (rest number layout (text :: texts)).move f =
      rest (number + offset) layout (text :: texts) := by
  induction texts generalizing number layout text with
  | nil =>
      rw [rest_cons, rest_cons, Reading.move_bind, move_line, h number (Int.le_refl _)]
      refine bind_congr fun next => ?_
      rw [move_end, Int.add_sub_cancel, h number (Int.le_refl _)]
  | cons other texts ih =>
      rw [rest_cons, rest_cons, Reading.move_bind, move_line, h number (Int.le_refl _)]
      refine bind_congr fun next => ?_
      rw [ih fun n hn => h n (Int.le_trans (Int.le_add_one (Int.le_refl _)) hn)]
      congr 1
      omega

/-- A bare line before other lines counts for nothing but the places of what follows. -/
theorem rest_insert {text : List Char} (hbare : Bare text) (number : Int) (layout : Layout)
    (first : List (List Char)) (next : List Char) (more : List (List Char)) :
    rest number layout (first ++ text :: next :: more) =
      (rest number layout (first ++ next :: more)).move (pushed (number + first.length)) := by
  induction first generalizing number layout with
  | nil =>
      have hpushed : ∀ n, number ≤ n → pushed (number + ([] : List (List Char)).length) n = n + 1 :=
        fun n hn => pushed_of_le (by simpa using hn)
      rw [List.nil_append, rest_cons, line_of_bare _ _ (holdsNothing_iff_bare.2 hbare), pure_bind]
      exact (move_rest hpushed layout next more).symm
  | cons other first ih =>
      have hlt : number < number + ((other :: first).length : Nat) :=
        Int.lt_add_of_pos_right _ (Int.natCast_pos.2 (Nat.succ_pos _))
      rw [List.cons_append, List.cons_append, rest_cons, rest_cons, Reading.move_bind, move_line,
        pushed_of_lt hlt]
      refine bind_congr fun layout => ?_
      rw [ih, List.length_cons]
      congr 2
      omega

/-- A bare line without its carriage return is bare. -/
theorem Bare.dropReturn {text : List Char} (h : Bare text) : Bare (Text.dropReturn text) := by
  obtain ⟨blanks, rest, rfl, hblanks, rfl | hrest⟩ := h
  · rw [List.append_nil]
    exact ⟨_, [], (List.append_nil _).symm,
      fun c hc => hblanks c (Text.dropReturn_subset blanks hc), .inl rfl⟩
  · obtain ⟨cs, rfl⟩ := List.head?_eq_some_iff.1 hrest
    refine ⟨blanks, _, Text.dropReturn_append _ (List.cons_ne_nil '#' cs), hblanks, .inr ?_⟩
    cases cs with
    | nil => rfl
    | cons c cs =>
        rw [← List.singleton_append, Text.dropReturn_append _ (List.cons_ne_nil c cs)]
        rfl

/-- A byte order mark is blank. -/
theorem Bare.dropMark {text : List Char} (h : Bare text) : Bare (Text.dropMark text) := by
  rw [← holdsNothing_iff_bare] at h ⊢
  cases text with
  | nil => exact h
  | cons c text =>
      rw [Text.dropMark]
      split
      · next hc =>
          rw [hc] at h
          exact h
      · exact h

/-- A bare line before a line of a source counts for nothing but the places of what follows. -/
theorem source_insert {source other line next : List Char} {first more : List (List Char)}
    (hsource : Text.splitLines source = first ++ next :: more)
    (hother : Text.splitLines other = first ++ line :: next :: more)
    (hmark : source.head? ≠ some '\uFEFF') (hbare : Bare line) :
    Scan.source other = (Scan.source source).move (pushed (1 + first.length)) := by
  have hlines : Text.lines (Text.dropMark source) =
      first.map Text.dropReturn ++ Text.dropReturn next :: more.map Text.dropReturn := by
    rw [Text.dropMark_of_head? hmark, Text.lines, hsource, List.map_append, List.map_cons]
  have hothers : ∃ text, Bare text ∧ Text.lines (Text.dropMark other) =
      first.map Text.dropReturn ++
        text :: Text.dropReturn next :: more.map Text.dropReturn := by
    rw [Text.lines, Text.splitLines_dropMark, hother]
    cases first with
    | nil => exact ⟨_, hbare.dropMark.dropReturn, rfl⟩
    | cons top first =>
        have htop := Text.splitLines_dropMark source
        rw [Text.dropMark_of_head? hmark, hsource] at htop
        have htop : Text.dropMark top = top := (List.cons.inj htop).1.symm
        exact ⟨_, hbare.dropReturn, by simp [htop]⟩
  obtain ⟨text, htext, hothers⟩ := hothers
  rw [source_eq_rest, source_eq_rest, hothers, hlines, rest_insert htext, List.length_map]

end Scan

end EoJava
