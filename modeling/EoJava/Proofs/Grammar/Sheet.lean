import EoJava.Grammar.Rules
import EoJava.Proofs.Breakdown
import EoJava.Proofs.Grammar.Descent
import EoJava.Proofs.Grammar.Legible

/-!
# Printed sheets

A sheet is a printed text as the grammar sees it: the way back from offsets to tokens, and the index
of the first token at or after an offset. `sheet.Shows leaves cursor` says that the text at a
cursor, after white space, is that of the leaves one by one, each where the sheet says it starts, up
to the end of the text.
-/

namespace EoJava.Grammar

open Text (Cursor)
open Matcher (skip)

/-- The way back from a printed text to tokens, and the first token at or after an offset. -/
structure Sheet where
  anchors : Anchors
  index : Nat → Nat
  index_zero : index 0 = 0
  index_mono : ∀ {a b : Nat}, a ≤ b → index a ≤ index b

namespace Sheet

variable (sheet : Sheet)

/-- A leaf starts at an offset, and the way back from there leads to its token. -/
structure Starts (start : Nat) (leaf : Leaf) : Prop where
  index : sheet.index start = leaf.index
  position : sheet.anchors.position start = .ok leaf.position
  text : ∀ value, leaf.terminal = .string value →
    (sheet.anchors.token start >>= sheet.anchors.text) = .ok value

/-- The text at a cursor shows leaves up to the end of the text. A place inside a printed leaf
belongs to the leaf after it. -/
inductive Shows : List Leaf → Cursor → Prop
  | stop {leaf : Leaf} {cursor : Cursor} (hterminal : leaf.terminal = .endOfInput)
      (hrest : (skip cursor).rest = []) (hstarts : sheet.Starts (skip cursor).offset leaf) :
      Shows [leaf] cursor
  | leaf {leaf : Leaf} {others : List Leaf} {cursor : Cursor} {gap : List Char}
      (hlegible : leaf.terminal.Legible) (hne : leaf.terminal ≠ .endOfInput)
      (hrest : (skip cursor).rest = leaf.terminal.print ++ ' ' :: gap)
      (hstarts : sheet.Starts (skip cursor).offset leaf)
      (hinside : ∀ k, 0 < k → k ≤ Text.width leaf.terminal.print →
        sheet.index ((skip cursor).offset + k) = leaf.index + 1)
      (hothers : Shows others ((skip cursor).after leaf.terminal.print (' ' :: gap))) :
      Shows (leaf :: others) cursor

end Sheet

/-! ## White space -/

/-- Nothing is skipped where no white space stands. -/
theorem skip_of_head {cursor : Cursor}
    (h : ∀ c ∈ cursor.rest.head?, Matcher.isSpace c = false) : skip cursor = cursor := by
  rcases cursor with ⟨_ | ⟨c, cs⟩, offset⟩
  · rfl
  · have hc : Matcher.isSpace c = false := h c rfl
    simp [skip, Cursor.after, hc]

/-- White space is skipped once. -/
@[simp]
theorem skip_skip (cursor : Cursor) : skip (skip cursor) = skip cursor := by
  refine skip_of_head fun c hc => ?_
  have hstop := List.head?_dropWhile_not Matcher.isSpace cursor.rest
  simp only [skip, Cursor.after, Option.mem_def] at hc
  simpa [hc] using hstop

/-- Skipping takes text away. -/
theorem length_skip_le (cursor : Cursor) : (skip cursor).rest.length ≤ cursor.rest.length :=
  (List.dropWhile_sublist _).length_le

namespace Sheet.Shows

variable {sheet : Sheet} {leaves : List Leaf} {cursor : Cursor}

/-- The same leaves are shown after white space. -/
theorem skip (h : sheet.Shows leaves cursor) : sheet.Shows leaves (skip cursor) := by
  cases h with
  | stop hterminal hrest hstarts => exact .stop hterminal (by simpa) (by simpa)
  | leaf hlegible hne hrest hstarts hinside hothers =>
      exact .leaf hlegible hne (by simpa) (by simpa) (by simpa) (by simpa)

end Sheet.Shows

end EoJava.Grammar
