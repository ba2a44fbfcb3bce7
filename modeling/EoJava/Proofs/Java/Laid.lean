import EoJava.Proofs.Java.Printed
import EoJava.Proofs.Java.Writing

/-!
# The layout of units

The blocks that are open at a line can be told from the lines: a line that ends with a brace after a
space opens one, and a line that is a brace closes one. In a unit every line is indented by the
blocks that are open, and blank lines stand only between members (`LaidOut`). The lines of a unit
are followed while it is written (`Rows`), whatever texts stand in them.
-/

namespace EoJava.Java

open Writer (indentation)

/-! ## Lines -/

/-- A line opens a block: it ends with a brace after a space. -/
def opens (line : String) : Bool :=
  [' ', '\x7b'].isSuffixOf line.toList

/-- A line closes a block: after its indentation it is a brace. -/
def closes (line : String) : Bool :=
  line.toList.dropWhile (· == ' ') == ['\x7d']

/-- The number of blocks open at a line: those that the lines before it open, without those that
they or the line itself close. -/
def depthAt (before : List String) (line : String) : Int :=
  before.countP opens - (before ++ [line]).countP closes

/-- A line starts with a number of spaces, and goes on with something else. -/
def Indented (spaces : Nat) (line : String) : Prop :=
  ∃ c rest, line.toList = List.replicate spaces ' ' ++ c :: rest ∧ c ≠ ' '

/-- A blank line stands between two lines that are not blank. The one before it opens no block, and
the one after it closes none. -/
def Spaced (lines : List String) : Prop :=
  ∀ before after, lines = before ++ "" :: after →
    ∃ earlier last next later, before = earlier ++ [last] ∧ after = next :: later ∧
      last ≠ "" ∧ opens last = false ∧ next ≠ "" ∧ closes next = false

/-- The lines of a unit. No block is open at the first and at the last of them, and one or more at
all others. Lines that are not blank are indented by the blocks that are open. -/
structure LaidOut (lines : List String) : Prop where
  depth : ∀ before line after, lines = before ++ line :: after →
    0 ≤ depthAt before line ∧ (depthAt before line = 0 ↔ before = [] ∨ after = [])
  indented : ∀ before line after, lines = before ++ line :: after → line ≠ "" →
    Indented (4 * (depthAt before line).toNat) line
  spaced : Spaced lines

/-- The last character of a line that opens a block is a brace. -/
theorem getLast?_of_opens {line : String} (h : opens line) :
    line.toList.getLast? = some '\x7b' := by
  obtain ⟨before, hbefore⟩ := List.isSuffixOf_iff_suffix.1 h
  rw [← hbefore]
  simp

/-- The last character of a line that closes a block is a brace. -/
theorem getLast?_of_closes {line : String} (h : closes line) :
    line.toList.getLast? = some '\x7d' := by
  have hbrace : line.toList.dropWhile (· == ' ') = ['\x7d'] := eq_of_beq h
  rw [← List.takeWhile_append_dropWhile (p := (· == ' ')) (l := line.toList), hbrace]
  simp

/-- What can be written in a line: it is printed and does not start with a space. -/
structure Visible (text : String) : Prop where
  starts : ∃ c rest, text.toList = c :: rest ∧ c ≠ ' '
  printed : Printed text

/-- Whether a text can be written in a line can be computed. -/
theorem visible_iff {text : String} :
    Visible text ↔ text.toList.head?.any (· != ' ') ∧ Printed text := by
  constructor
  · rintro ⟨⟨c, rest, htext, hc⟩, hprinted⟩
    exact ⟨by simp [htext, hc], hprinted⟩
  · rintro ⟨hstarts, hprinted⟩
    obtain ⟨c, hhead, hc⟩ := (Option.any_eq_true _ _).1 hstarts
    obtain ⟨rest, htext⟩ := List.head?_eq_some_iff.1 hhead
    exact ⟨⟨c, rest, htext, by simpa using hc⟩, hprinted⟩

instance (text : String) : Decidable (Visible text) :=
  decidable_of_iff _ visible_iff.symm

/-- A statement ends with a semicolon. -/
structure IsStatement (text : String) : Prop extends Visible text where
  ends : text.toList.getLast? = some ';'

namespace Visible

variable {text : String}

/-- Behind an indentation, a visible text makes a line that is indented by it. -/
theorem indented (h : Visible text) (depth : Nat) :
    Indented (4 * depth) (indentation depth ++ text) := by
  obtain ⟨c, rest, htext, hc⟩ := h.starts
  refine ⟨c, rest, ?_, hc⟩
  rw [String.toList_append, indentation, String.toList_ofList, htext]

/-- An indented line ends as its text does. -/
theorem getLast?_line (h : Visible text) (depth : Nat) :
    (indentation depth ++ text).toList.getLast? = text.toList.getLast? := by
  obtain ⟨c, rest, htext, -⟩ := h.starts
  rw [String.toList_append, htext, List.getLast?_append_of_ne_nil]
  exact List.cons_ne_nil c rest

/-- A line is printed if its text is. -/
theorem printed_line (h : Visible text) (depth : Nat) : Printed (indentation depth ++ text) := by
  refine printed_append.2 ⟨fun c hc => ?_, h.printed⟩
  rw [indentation, String.toList_ofList] at hc
  rw [List.eq_of_mem_replicate hc]
  decide

/-- A line with a visible text is not blank. -/
theorem ne_empty (h : Visible text) (depth : Nat) : indentation depth ++ text ≠ "" := by
  obtain ⟨c, rest, htext, -⟩ := h.starts
  intro hempty
  have := congrArg String.toList hempty
  simp [htext] at this

end Visible

/-- A statement opens no block. -/
theorem opens_statement {text : String} (h : IsStatement text) (depth : Nat) :
    opens (indentation depth ++ text) = false := by
  refine Bool.eq_false_iff.2 fun hopens => ?_
  have hlast := getLast?_of_opens hopens
  rw [h.getLast?_line, h.ends] at hlast
  cases hlast

/-- A statement closes no block. -/
theorem closes_statement {text : String} (h : IsStatement text) (depth : Nat) :
    closes (indentation depth ++ text) = false := by
  refine Bool.eq_false_iff.2 fun hcloses => ?_
  have hlast := getLast?_of_closes hcloses
  rw [h.getLast?_line, h.ends] at hlast
  cases hlast

/-- A visible text stays so when printed text follows it. -/
theorem Visible.append {text more : String} (h : Visible text) (hmore : Printed more) :
    Visible (text ++ more) := by
  obtain ⟨⟨c, rest, htext, hc⟩, hprinted⟩ := h
  refine ⟨⟨c, rest ++ more.toList, ?_, hc⟩, printed_append.2 ⟨hprinted, hmore⟩⟩
  rw [String.toList_append, htext, List.cons_append]

/-- A header is visible with the brace that it ends with. -/
theorem Visible.header {text : String} (h : Visible text) : Visible (text ++ " \x7b") :=
  h.append (by decide)

/-- A header opens a block, at any indentation. -/
theorem opens_header (text : String) (depth : Nat) :
    opens (indentation depth ++ (text ++ " \x7b")) := by
  refine List.isSuffixOf_iff_suffix.2 ⟨(indentation depth ++ text).toList, ?_⟩
  simp

/-- A header closes no block, though it ends with a brace. -/
theorem closes_header (text : String) (depth : Nat) :
    closes (indentation depth ++ (text ++ " \x7b")) = false := by
  refine Bool.eq_false_iff.2 fun hcloses => ?_
  have hlast := getLast?_of_closes hcloses
  simp at hlast

/-- A closing brace can be written in a line. -/
theorem visible_brace : Visible "\x7d" := by
  decide

/-- A closing brace opens no block. -/
theorem opens_brace (depth : Nat) : opens (indentation depth ++ "\x7d") = false := by
  refine Bool.eq_false_iff.2 fun hopens => ?_
  have hlast := getLast?_of_opens hopens
  simp at hlast

/-- A closing brace closes a block, at any indentation. -/
theorem closes_brace (depth : Nat) : closes (indentation depth ++ "\x7d") := by
  simp [closes, indentation]

/-- If a printed line is added to printed lines, all are printed. -/
theorem printed_concat {lines : List String} {row : String} (h : ∀ line ∈ lines, Printed line)
    (hrow : Printed row) : ∀ line ∈ lines ++ [row], Printed line :=
  List.forall_mem_append.2 ⟨h, List.forall_mem_singleton.2 hrow⟩

/-! ## Incomplete units -/

/-- The lines of a unit that is being written, and the number of blocks that are open after
them. -/
inductive Rows : List String → Nat → Prop where
  | opening {header : String} (hheader : Visible header) :
      Rows [indentation 0 ++ (header ++ " \x7b")] 1
  | statement {lines : List String} {depth : Nat} {text : String} (h : Rows lines depth)
      (htext : IsStatement text) : Rows (lines ++ [indentation depth ++ text]) depth
  | header {lines : List String} {depth : Nat} {header : String} (h : Rows lines depth)
      (hheader : Visible header) :
      Rows (lines ++ [indentation depth ++ (header ++ " \x7b")]) (depth + 1)
  | member {lines : List String} {depth : Nat} {header : String} (h : Rows lines depth)
      (hlast : ∀ last ∈ lines.getLast?, opens last = false) (hheader : Visible header) :
      Rows (lines ++ [""] ++ [indentation depth ++ (header ++ " \x7b")]) (depth + 1)
  | closing {lines : List String} {depth : Nat} (h : Rows lines (depth + 1))
      (hdepth : 0 < depth) : Rows (lines ++ [indentation depth ++ "\x7d"]) depth

/-- Some blocks are open after the lines of an incomplete unit, and at each line but the first. The
lines are indented by them. -/
structure Aligned (lines : List String) (depth : Nat) : Prop where
  pos : 0 < depth
  balance : lines.countP opens = depth + lines.countP closes
  depth : ∀ before line after, lines = before ++ line :: after →
    0 ≤ depthAt before line ∧ (depthAt before line = 0 ↔ before = [])
  indented : ∀ before line after, lines = before ++ line :: after → line ≠ "" →
    Indented (4 * (depthAt before line).toNat) line

/-- What holds of all lines but the last one, and of the last one, holds of all. -/
theorem forall_concat {Q : List String → String → Prop} (lines : List String) {row : String}
    (h : ∀ before line after, lines = before ++ line :: after → Q before line)
    (hrow : Q lines row) :
    ∀ before line after, lines ++ [row] = before ++ line :: after → Q before line := by
  intro before line after heq
  rcases List.eq_nil_or_concat' after with rfl | ⟨after, last, rfl⟩
  · obtain ⟨rfl, hline⟩ := List.append_inj' heq rfl
    cases hline
    exact hrow
  · rw [← List.cons_append, ← List.append_assoc] at heq
    obtain ⟨hlines, -⟩ := List.append_inj' heq rfl
    exact h before line after hlines

namespace Aligned

variable {lines : List String} {depth : Nat}

/-- Where a block is open, a line has opened it. -/
theorem ne_nil (h : Aligned lines depth) : lines ≠ [] := by
  rintro rfl
  have := h.pos
  have := h.balance
  simp at this
  omega

/-- The depth at the next line is the depth so far, less the block that the line closes. -/
theorem depthAt_eq (h : Aligned lines depth) (row : String) :
    depthAt lines row = depth - if closes row then 1 else 0 := by
  have hbalance := h.balance
  rw [depthAt, List.countP_append, List.countP_singleton]
  split <;> push_cast <;> omega

/-- A line is added. Where it closes a block, the block is not the last one that is open. -/
theorem concat (h : Aligned lines depth) {row : String} (inner : Nat) {depth' : Nat}
    (hinner : inner + (if closes row then 1 else 0) = depth) (hpos : 0 < inner)
    (hdepth : depth' = inner + if opens row then 1 else 0)
    (hrow : row ≠ "" → Indented (4 * inner) row) : Aligned (lines ++ [row]) depth' := by
  have hbalance := h.balance
  have hat : depthAt lines row = inner := by
    rw [h.depthAt_eq]
    split at hinner
    · next hcloses =>
        rw [if_pos hcloses]
        omega
    · next hcloses =>
        rw [if_neg hcloses]
        omega
  refine ⟨by omega, ?_, ?_, ?_⟩
  · rw [List.countP_append, List.countP_append, List.countP_singleton, List.countP_singleton]
    omega
  · refine forall_concat _ h.depth ?_
    rw [hat]
    exact ⟨by omega, iff_of_false (by omega) h.ne_nil⟩
  · refine forall_concat _ h.indented fun hne => ?_
    rw [hat]
    exact hrow hne

end Aligned

/-- No blank line stands in no lines. -/
theorem spaced_nil : Spaced [] := by
  intro before after heq
  simp at heq

namespace Spaced

variable {lines : List String} {row : String}

/-- A line that is not blank can be added to spaced lines. -/
theorem concat (h : Spaced lines) (hrow : row ≠ "") : Spaced (lines ++ [row]) := by
  intro before after heq
  rcases List.eq_nil_or_concat' after with rfl | ⟨after, last, rfl⟩
  · obtain ⟨-, hline⟩ := List.append_inj' heq rfl
    exact absurd (List.cons.inj hline).1 hrow
  · rw [← List.cons_append, ← List.append_assoc] at heq
    obtain ⟨hlines, hlast⟩ := List.append_inj' heq rfl
    obtain ⟨earlier, prior, next, later, rfl, rfl, hspaced⟩ := h before after hlines
    exact ⟨earlier, prior, next, later ++ [last], rfl, rfl, hspaced⟩

/-- A blank line is added together with the line after it. -/
theorem concat_blank (h : Spaced lines) {last : String} (hlast : last ∈ lines.getLast?)
    (hne : last ≠ "") (hopens : opens last = false) (hrow : row ≠ "")
    (hcloses : closes row = false) : Spaced (lines ++ [""] ++ [row]) := by
  intro before after heq
  rcases List.eq_nil_or_concat' after with rfl | ⟨after, added, rfl⟩
  · obtain ⟨-, hline⟩ := List.append_inj' heq rfl
    exact absurd (List.cons.inj hline).1 hrow
  · rw [← List.cons_append, ← List.append_assoc] at heq
    obtain ⟨hlines, hadded⟩ := List.append_inj' heq rfl
    cases hadded
    rcases List.eq_nil_or_concat' after with rfl | ⟨after, blank, rfl⟩
    · obtain ⟨rfl, -⟩ := List.append_inj' hlines rfl
      obtain ⟨earlier, rfl⟩ := List.getLast?_eq_some_iff.1 hlast
      exact ⟨earlier, last, row, [], rfl, rfl, hne, hopens, hrow, hcloses⟩
    · rw [← List.cons_append, ← List.append_assoc] at hlines
      obtain ⟨hlines, hblank⟩ := List.append_inj' hlines rfl
      obtain ⟨earlier, prior, next, later, rfl, rfl, hspaced⟩ := h before after hlines
      exact ⟨earlier, prior, next, later ++ [blank] ++ [row], rfl, by simp, hspaced⟩

end Spaced

namespace Rows

variable {lines : List String} {depth : Nat}

/-- Incomplete units are aligned at every step of the writing. -/
theorem aligned (h : Rows lines depth) : Aligned lines depth := by
  induction h with
  | @opening header hheader =>
      have hopens := opens_header header 0
      have hcloses := closes_header header 0
      have hat : depthAt [] (indentation 0 ++ (header ++ " \x7b")) = 0 := by
        simp [depthAt, hcloses]
      refine ⟨Nat.one_pos, by simp [hopens, hcloses], ?_, ?_⟩
      · refine forall_concat [] (by simp) ?_
        simp [hat]
      · refine forall_concat [] (by simp) fun _ => ?_
        rw [hat]
        exact hheader.header.indented 0
  | @statement lines depth text _ htext ih =>
      refine ih.concat depth ?_ ih.pos ?_ fun _ => htext.indented depth
      · simp [closes_statement htext]
      · simp [opens_statement htext]
  | @header lines depth header _ hheader ih =>
      refine ih.concat depth ?_ ih.pos ?_ fun _ => hheader.header.indented depth
      · simp [closes_header]
      · simp [opens_header]
  | @member lines depth header _ _ hheader ih =>
      -- A blank line opens and closes no block, so the header after it stands where it would.
      have hblank : Aligned (lines ++ [""]) depth :=
        ih.concat depth (by simp [closes]) ih.pos (by simp [opens])
          fun hne => absurd rfl hne
      refine hblank.concat depth ?_ ih.pos ?_ fun _ => hheader.header.indented depth
      · simp [closes_header]
      · simp [opens_header]
  | @closing lines depth _ hdepth ih =>
      refine ih.concat depth ?_ hdepth ?_ fun _ => visible_brace.indented depth
      · simp [closes_brace]
      · simp [opens_brace]

/-- Blank lines stand only between members at every step of the writing. -/
theorem spaced (h : Rows lines depth) : Spaced lines := by
  induction h with
  | @opening header hheader => exact spaced_nil.concat (hheader.header.ne_empty 0)
  | @statement lines depth text _ htext ih => exact ih.concat (htext.ne_empty depth)
  | @header lines depth header _ hheader ih => exact ih.concat (hheader.header.ne_empty depth)
  | @member lines depth header h hlast hheader ih =>
      -- The line before is not blank: a blank line is never last, since a header comes with it.
      obtain ⟨init, last, rfl⟩ := (List.eq_nil_or_concat' lines).resolve_left h.aligned.ne_nil
      have hmem : last ∈ (init ++ [last]).getLast? := by simp
      refine ih.concat_blank hmem ?_ (hlast last hmem) (hheader.header.ne_empty depth)
        (closes_header header depth)
      rintro rfl
      obtain ⟨_, _, _, _, -, hafter, -⟩ := ih init [] rfl
      cases hafter
  | @closing lines depth _ _ ih => exact ih.concat (visible_brace.ne_empty depth)

/-- All lines are printed at every step of the writing. -/
theorem printed (h : Rows lines depth) : ∀ line ∈ lines, Printed line := by
  induction h with
  | @opening header hheader => exact List.forall_mem_singleton.2 (hheader.header.printed_line 0)
  | @statement lines depth text _ htext ih =>
      exact printed_concat ih (htext.printed_line depth)
  | @header lines depth header _ hheader ih =>
      exact printed_concat ih (hheader.header.printed_line depth)
  | @member lines depth header _ _ hheader ih =>
      exact printed_concat (printed_concat ih (by decide)) (hheader.header.printed_line depth)
  | @closing lines depth _ _ ih => exact printed_concat ih (visible_brace.printed_line _)

/-- When the last block is closed, the lines are those of a unit. -/
theorem laidOut (h : Rows lines 1) : LaidOut (lines ++ [indentation 0 ++ "\x7d"]) := by
  have hat : depthAt lines (indentation 0 ++ "\x7d") = 0 := by
    rw [h.aligned.depthAt_eq, if_pos (closes_brace 0)]
    rfl
  -- Only the last brace is back at no depth; all lines before it are those of the open unit.
  refine ⟨fun before line after heq => ?_, ?_, h.spaced.concat (visible_brace.ne_empty 0)⟩
  · rcases List.eq_nil_or_concat' after with rfl | ⟨after, last, rfl⟩
    · obtain ⟨rfl, hline⟩ := List.append_inj' heq rfl
      cases hline
      simp [hat]
    · rw [← List.cons_append, ← List.append_assoc] at heq
      obtain ⟨hlines, -⟩ := List.append_inj' heq rfl
      simpa using h.aligned.depth before line after hlines
  · refine forall_concat _ h.aligned.indented fun _ => ?_
    rw [hat]
    exact visible_brace.indented 0

end Rows

end EoJava.Java
