import EoJava.Proofs.Token.Outcome

/-!
# What a scan gives, and where

`Scan.Gives` lists the lexemes that a line can give and `Scan.Stops` the problems that can stop it,
each with its place. A line gives nothing else (`within_line`), and neither does a source, apart
from what closes its last line (`within_source`). So what comes of lines is on these lines
(`on_lines`).
-/

namespace EoJava

open Text (Cursor)

/-! ## Readings -/

namespace Reading

variable {α β : Type} {P P' : Located Lexeme → Prop} {Q Q' : Located Problem → Prop}

/-- All lexemes of a reading have one property, and the problem that stops it has another. -/
structure Within (reading : Reading α) (P : Located Lexeme → Prop) (Q : Located Problem → Prop) :
    Prop where
  lexemes : ∀ found ∈ reading.lexemes, P found
  problem : ∀ found, reading.outcome = .error found → Q found

/-- A reading that meets nothing is within any bounds. -/
theorem within_pure (a : α) : (pure a : Reading α).Within P Q :=
  ⟨List.forall_mem_nil _, nofun⟩

/-- A reading that meets one lexeme is within the bounds of this one. -/
theorem within_emit {position : Position} {lexeme : Lexeme} (h : P ⟨position, lexeme⟩) :
    (emit position lexeme).Within P Q :=
  ⟨List.forall_mem_singleton.2 h, nofun⟩

/-- A reading that fails is within the bounds of its problem. -/
theorem within_fail {position : Position} {problem : Problem} (h : Q ⟨position, problem⟩) :
    (fail position problem : Reading α).Within P Q :=
  ⟨List.forall_mem_nil _, fun _ hfound => by cases hfound; exact h⟩

/-- A result that the first reading ends with may be taken to be its result. -/
theorem Within.bind_of_ok {first : Reading α} (hfirst : first.Within P Q) {next : α → Reading β}
    (hnext : ∀ a, first.outcome = .ok a → (next a).Within P Q) : (first >>= next).Within P Q := by
  rcases first with ⟨earlier, problem | a⟩
  · exact ⟨hfirst.lexemes, fun found h => by cases h; exact hfirst.problem problem rfl⟩
  · have hlater := hnext a rfl
    exact ⟨List.forall_mem_append.2 ⟨hfirst.lexemes, hlater.lexemes⟩, hlater.problem⟩

/-- Two readings in turn are within bounds that both keep. -/
theorem Within.bind {first : Reading α} (hfirst : first.Within P Q) {next : α → Reading β}
    (hnext : ∀ a, (next a).Within P Q) : (first >>= next).Within P Q :=
  hfirst.bind_of_ok fun a _ => hnext a

/-- A reading within bounds is within wider ones. -/
theorem Within.imp {reading : Reading α} (h : reading.Within P Q)
    (hlexeme : ∀ found, P found → P' found) (hproblem : ∀ found, Q found → Q' found) :
    reading.Within P' Q' :=
  ⟨fun found hfound => hlexeme _ (h.lexemes found hfound),
    fun found hfound => hproblem _ (h.problem found hfound)⟩

end Reading

/-! ## Layout -/

namespace Layout

variable {number : Int} {text : List Char} {P : Located Lexeme → Prop} {Q : Located Problem → Prop}

/-- The lexemes that settle the layout of a line. -/
inductive Gives (number : Int) : Located Lexeme → Prop where
  | indent (depth : Nat) : Gives number ⟨⟨number, 1⟩, .indent depth⟩
  | dedent (depth : Nat) : Gives number ⟨⟨number, 1⟩, .dedent depth⟩

/-- The problems with the indentation of a line, each at its place. -/
inductive Stops (number : Int) (text : List Char) : Located Problem → Prop where
  | mixed {style : Text.IndentStyle} {offset : Nat}
      (h : firstForeign? style (text.takeWhile Text.isGap) = some offset) :
      Stops number text ⟨⟨number, offset + 1⟩, .mixedIndentation style⟩
  | inconsistent (expected found : Text.IndentStyle) :
      Stops number text ⟨⟨number, 1⟩, .inconsistentIndentation expected found⟩
  | unmatched (levels : List Nat) :
      Stops number text ⟨⟨number, Text.indentWidth text + 1⟩,
        .unmatchedUnindent (Text.indentWidth text) levels⟩

/-- Reading the style of a line meets no lexeme, and it stops at the indentation only. -/
theorem within_readStyle (number : Int) (layout : Layout) (text : List Char) :
    (layout.readStyle number (text.takeWhile Text.isGap)).Within P (Stops number text) := by
  unfold readStyle
  split
  · exact Reading.within_pure _
  · split
    · next hforeign => exact Reading.within_fail (.mixed hforeign)
    · split
      · exact Reading.within_pure _
      · split
        · exact Reading.within_pure _
        · exact Reading.within_fail (.inconsistent _ _)

/-- Closing blocks gives layout at the start of the line and cannot fail. -/
theorem within_close (number : Int) (width : Nat) (widths : List Nat) :
    (close number width widths).Within (Gives number) Q := by
  induction widths with
  | nil => exact Reading.within_pure _
  | cons top widths ih =>
      rw [close]
      split
      · exact (Reading.within_emit (.dedent _)).bind fun _ => ih
      · exact Reading.within_pure _

/-- Reading a width stops only at the end of an indentation to which no block is open. -/
theorem within_readWidth (number : Int) (width : Nat) (widths : List Nat) :
    (readWidth number width widths).Within (Gives number) fun found =>
      ∃ levels, found = ⟨⟨number, width + 1⟩, .unmatchedUnindent width levels⟩ := by
  unfold readWidth
  split
  · exact (Reading.within_emit (.indent _)).bind fun _ => Reading.within_pure _
  · refine (within_close number width widths).bind fun remaining => ?_
    split
    · exact Reading.within_pure _
    · exact Reading.within_fail ⟨_, rfl⟩

/-- Settling the layout of a line gives layout and stops at the indentation only. -/
theorem within_enter (number : Int) (layout : Layout) (text : List Char) :
    (layout.enter number text).Within (Gives number) (Stops number text) := by
  refine (within_readStyle number layout text).bind fun style => ?_
  refine Reading.Within.bind ?_ fun widths => Reading.within_pure _
  refine (within_readWidth number (Text.indentWidth text) _).imp (fun _ h => h) fun _ h => ?_
  obtain ⟨levels, rfl⟩ := h
  exact .unmatched levels

end Layout

/-! ## Lines -/

namespace Scan

/-- The lexemes that a line can give, each at its place. -/
inductive Gives (number : Int) (text : List Char) : Located Lexeme → Prop where
  | layout {found : Located Lexeme} (h : Layout.Gives number found) : Gives number text found
  | newline : Gives number text ⟨⟨number, Text.width text + 1⟩, .newline⟩
  | lexeme {c : Char} {rest : List Char} {offset : Nat} {lexeme : Lexeme} {after : Cursor}
      (hhere : Cursor.StandsIn text ⟨c :: rest, offset⟩)
      (hnext : Lexing.next? c rest offset = .ok (lexeme, after)) :
      Gives number text ⟨⟨number, offset + 1⟩, lexeme⟩

/-- The problems that can stop a line, each at its place. -/
inductive Stops (number : Int) (text : List Char) : Located Problem → Prop where
  | layout {found : Located Problem} (h : Layout.Stops number text found) :
      Stops number text found
  | lexeme {c : Char} {rest : List Char} {offset place : Nat} {problem : Problem}
      (hhere : Cursor.StandsIn text ⟨c :: rest, offset⟩)
      (hnext : Lexing.next? c rest offset = .error (place, problem)) :
      Stops number text ⟨⟨number, place + 1⟩, problem⟩

variable {number : Int} {text : List Char}

/-- The content of a line gives its lexemes and stops at one of them. -/
theorem within_content (number : Int) (depth : Nat) {cursor : Cursor}
    (h : cursor.StandsIn text) :
    (content number depth cursor).Within (Gives number text) (Stops number text) := by
  fun_induction content number depth cursor with
  | case1 => exact Reading.within_pure _
  | case2 depth cursor c rest hrest hgap ih =>
      have htaken : cursor.rest = [c] ++ rest := hrest
      refine ih (h.move htaken ?_)
      rw [Text.width_cons, Text.units_of_isGap hgap, Text.width_nil]
  | case3 => exact Reading.within_pure _
  | case4 depth cursor c rest hrest hgap hcomment lexeme after hmet ih =>
      have hhere : Cursor.StandsIn text ⟨c :: rest, cursor.offset⟩ := by rwa [← hrest]
      exact (Reading.within_emit (.lexeme hhere hmet)).bind fun _ =>
        ih (Lexing.standsIn_of_next? hmet hhere).1
  | case5 depth cursor c rest hrest hgap hcomment place problem hmet =>
      have hhere : Cursor.StandsIn text ⟨c :: rest, cursor.offset⟩ := by rwa [← hrest]
      exact Reading.within_fail (.lexeme hhere hmet)

/-- A line in a settled layout gives its lexemes and the end of the line. -/
theorem within_settled (number : Int) (text : List Char) (layout : Layout) :
    (settled number text layout).Within (Gives number text) (Stops number text) := by
  rw [settled_eq]
  refine (within_content _ _ (Cursor.standsIn_start text)).bind fun depth => ⟨?_, nofun⟩
  intro found hfound
  split at hfound
  · rw [List.mem_singleton.1 hfound]
    exact .newline
  · cases hfound

/-- A line gives only lexemes of its own, and only a problem of its own stops it. -/
theorem within_line (number : Int) (layout : Layout) (text : List Char) :
    (line number layout text).Within (Gives number text) (Stops number text) := by
  cases hbare : Text.holdsNothing text with
  | true =>
      rw [line_of_bare number layout hbare]
      exact Reading.within_pure _
  | false =>
      by_cases hdepth : layout.depth = 0
      · rw [line_of_outside number hbare hdepth]
        have henter : (layout.enter number text).Within (Gives number text) (Stops number text) :=
          (Layout.within_enter number layout text).imp (fun _ => .layout) fun _ => .layout
        exact henter.bind fun _ => within_settled number text _
      · rw [line_of_inside number hbare hdepth]
        exact within_settled number text _

/-! ## Runs of lines -/

/-- Something is of one of the lines of a text, counted from a number. -/
def Among {α : Type} (P : Int → List Char → α → Prop) (number : Int) (texts : List (List Char))
    (found : α) : Prop :=
  ∃ (i : Nat) (text : List Char), texts[i]? = some text ∧ P (number + i) text found

namespace Among

variable {α : Type} {P P' : Int → List Char → α → Prop} {texts : List (List Char)} {found : α}

/-- What is of the first line is of one of the lines. -/
theorem head (h : P number text found) (texts : List (List Char)) :
    Among P number (text :: texts) found :=
  ⟨0, text, rfl, by simpa using h⟩

/-- What is of one of the later lines is of one of the lines. -/
theorem cons (h : Among P (number + 1) texts found) (text : List Char) :
    Among P number (text :: texts) found := by
  obtain ⟨i, other, hother, hfound⟩ := h
  have hnumber : number + 1 + (i : Int) = number + (i + 1 : Nat) := by omega
  exact ⟨i + 1, other, hother, hnumber ▸ hfound⟩

/-- What is of a line in one way is of a line in any looser way. -/
theorem imp (h : Among P number texts found)
    (himp : ∀ number text, P number text found → P' number text found) :
    Among P' number texts found := by
  obtain ⟨i, text, htext, hfound⟩ := h
  exact ⟨i, text, htext, himp _ _ hfound⟩

/-- What is on the line that it is of is on one of the lines. -/
theorem bounds {β : Type} {P : Int → List Char → Located β → Prop} {found : Located β}
    (h : Among P number texts found)
    (hline : ∀ number text, P number text found → found.position.line = number) :
    number ≤ found.position.line ∧ found.position.line < number + texts.length := by
  obtain ⟨i, text, htext, hfound⟩ := h
  obtain ⟨hi, -⟩ := List.getElem?_eq_some_iff.1 htext
  rw [hline _ _ hfound]
  omega

end Among

/-- What holds of each line on its own holds of a run of lines, line by line. -/
theorem within_lines_of {P : Int → List Char → Located Lexeme → Prop}
    {Q : Int → List Char → Located Problem → Prop}
    (h : ∀ number layout text, (line number layout text).Within (P number text) (Q number text))
    (number : Int) (layout : Layout) (texts : List (List Char)) :
    (lines number layout texts).Within (Among P number texts) (Among Q number texts) := by
  induction texts generalizing number layout with
  | nil => exact Reading.within_pure _
  | cons text texts ih =>
      have hfirst : (line number layout text).Within (Among P number (text :: texts))
          (Among Q number (text :: texts)) :=
        (h number layout text).imp (fun _ h => .head h texts) fun _ h => .head h texts
      exact hfirst.bind fun layout => (ih (number + 1) layout).imp
        (fun _ h => h.cons text) (fun _ h => h.cons text)

/-- Lines give what each of them can give. -/
theorem within_lines (number : Int) (layout : Layout) (texts : List (List Char)) :
    (lines number layout texts).Within (Among Gives number texts) (Among Stops number texts) :=
  within_lines_of within_line number layout texts

/-- What a line gives, or the end of the source on it. -/
def Closes (number : Int) (text : List Char) (found : Located Lexeme) : Prop :=
  Gives number text found ∨ found = ⟨⟨number, 1⟩, .endOfInput⟩

/-- Closing all blocks gives layout at the start of the last line. -/
theorem within_closeAll {Q : Located Problem → Prop} (number : Int) (widths : List Nat) :
    (closeAll number widths).Within (∃ depth, · = ⟨⟨number, 1⟩, .dedent depth⟩) Q := by
  induction widths with
  | nil => exact Reading.within_pure _
  | cons width widths ih => exact (Reading.within_emit ⟨_, rfl⟩).bind fun _ => ih

/-- The rest of a source gives what its lines give, and what closes its last line. -/
theorem within_rest (number : Int) (layout : Layout) {texts : List (List Char)} (hne : texts ≠ []) :
    (rest number layout texts).Within (Among Closes number texts) (Among Stops number texts) := by
  have hfirst : (lines number layout texts).Within (Among Closes number texts)
      (Among Stops number texts) :=
    (within_lines number layout texts).imp (fun _ h => h.imp fun _ _ => .inl) fun _ h => h
  refine hfirst.bind_of_ok fun reached hok => ?_
  obtain ⟨final, layout'⟩ := reached
  have hread : lines number layout texts =
      ⟨(lines number layout texts).lexemes, .ok (final, layout')⟩ := by
    rw [← hok]
  have hpos := List.length_pos_iff.2 hne
  obtain rfl : final = number + ((texts.length - 1 : Nat) : Int) := by
    rw [last_of_lines hread]
    omega
  obtain ⟨last, hlast⟩ : ∃ last, texts[texts.length - 1]? = some last :=
    ⟨_, List.getElem?_eq_getElem (by omega)⟩
  refine Reading.Within.bind ?_ fun _ => Reading.within_emit ⟨_, last, hlast, .inr rfl⟩
  refine (within_closeAll _ layout'.widths).imp (fun found h => ?_) fun _ h => h
  obtain ⟨depth, rfl⟩ := h
  exact ⟨_, last, hlast, .inl (.layout (.dedent depth))⟩

/-- A source gives what its lines can give, and its end on the last of them. -/
theorem within_source (text : List Char) :
    (source text).Within (Among Closes 1 (Text.lines (Text.dropMark text)))
      (Among Stops 1 (Text.lines (Text.dropMark text))) := by
  rw [source_eq_rest]
  exact within_rest 1 {} (Text.lines_ne_nil _)

/-! ## Lines of what is met -/

/-- What a line gives is on this line. -/
theorem Gives.line {found : Located Lexeme} (h : Gives number text found) :
    found.position.line = number := by
  cases h with
  | layout h => cases h <;> rfl
  | newline | lexeme => rfl

/-- What closes a line is on this line. -/
theorem Closes.line {found : Located Lexeme} (h : Closes number text found) :
    found.position.line = number := by
  obtain h | rfl := h
  · exact h.line
  · rfl

/-- What stops a line is on this line. -/
theorem Stops.line {found : Located Problem} (h : Stops number text found) :
    found.position.line = number := by
  cases h with
  | layout h => cases h <;> rfl
  | lexeme => rfl

/-- What comes of a run of lines is on these lines. -/
theorem on_lines (number : Int) (layout : Layout) (texts : List (List Char)) :
    (lines number layout texts).Within
      (fun found => number ≤ found.position.line ∧ found.position.line < number + texts.length)
      fun found => number ≤ found.position.line ∧ found.position.line < number + texts.length :=
  (within_lines number layout texts).imp (fun _ h => h.bounds fun _ _ => Gives.line)
    fun _ h => h.bounds fun _ _ => Stops.line

/-- What comes of the rest of a source is not on an earlier line. -/
theorem on_rest (number : Int) (layout : Layout) (text : List Char) (more : List (List Char)) :
    (rest number layout (text :: more)).Within (number ≤ ·.position.line)
      (number ≤ ·.position.line) :=
  (within_rest number layout (List.cons_ne_nil text more)).imp
    (fun _ h => (h.bounds fun _ _ => Closes.line).1) fun _ h => (h.bounds fun _ _ => Stops.line).1

end Scan

end EoJava
