import EoJava.Proofs.Java.Rendering

/-!
# Lines as they are read

Each line of a unit spells its lexemes, whatever its indentation, and so does a block with its
header. `Writer.Writes` says which lexemes a way of writing adds; ways of writing are put together
as they are in the program.
-/

namespace EoJava.Java

/-! ## Lines -/

/-- An indentation has no lexemes. -/
theorem leads_indentation (depth : Nat) : Leads (Writer.indentation depth) [] := by
  have hspaces : ∀ n rest, lex (List.replicate n ' ' ++ rest) = lex rest := by
    intro n rest
    induction n with
    | zero => rfl
    | succ n ih =>
        rw [List.replicate_succ, List.cons_append, lex_space rfl]
        exact ih
  refine ⟨List.replicate (4 * depth) ' ', ?_, fun rest _ => by simp [hspaces]⟩
  rw [Writer.indentation, String.toList_ofList]
  refine .self fun c hc => ?_
  rw [List.eq_of_mem_replicate hc]
  decide

/-- The end of a line separates what is around it. -/
theorem separates_newline : Separates "\n" [] :=
  separates_of_isClosed (by decide) (by decide)

/-- Lines that end with line feeds spell what they spell in order. -/
theorem leads_lines {lines : List String} {parts : List (List Lexeme)} (hlines : lines ≠ [])
    (h : List.Forall₂ Spells lines parts) :
    Leads ("\n".intercalate lines ++ "\n") parts.flatten := by
  induction h with
  | nil => exact absurd rfl hlines
  | @cons line part lines parts hline hothers ih =>
      cases hothers with
      | nil => simpa using hline.append_separates separates_newline
      | cons hnext hothers =>
          have hrest := ih (List.cons_ne_nil _ _)
          rw [String.intercalate_cons_cons, String.append_assoc]
          simpa using (hline.append_separates separates_newline).append hrest

namespace Writer

/-- What is written so far spells lexemes, line by line. -/
def Spelled (writer : Writer) (lexemes : List Lexeme) : Prop :=
  ∃ parts, List.Forall₂ Spells writer.lines parts ∧ parts.flatten = lexemes

/-- Nothing is written at first. -/
theorem spelled_nil : ({} : Writer).Spelled [] :=
  ⟨[], .nil, rfl⟩

namespace Spelled

variable {writer : Writer} {lexemes others : List Lexeme} {text : String}

/-- A line is added, whatever its indentation. -/
theorem append (h : writer.Spelled lexemes) (htext : Spells text others) (depth depth' : Nat) :
    Spelled ⟨writer.lines ++ [indentation depth ++ text], depth'⟩ (lexemes ++ others) := by
  obtain ⟨parts, hlines, rfl⟩ := h
  refine ⟨parts ++ [others], ?_, by simp⟩
  exact List.rel_append hlines (.cons ((leads_indentation depth).append_spells htext) .nil)

/-- A line adds its lexemes. -/
theorem line (h : writer.Spelled lexemes) (htext : Spells text others) :
    (writer.line text).Spelled (lexemes ++ others) :=
  h.append htext _ _

/-- Lines add their lexemes in turn. -/
theorem foldl_line {body : List String} {parts : List (List Lexeme)} (h : writer.Spelled lexemes)
    (hbody : List.Forall₂ Spells body parts) :
    (body.foldl Writer.line writer).Spelled (lexemes ++ parts.flatten) := by
  induction hbody generalizing writer lexemes with
  | nil => simpa using h
  | cons htext htexts ih => simpa using ih (h.line htext)

/-- A blank line adds no lexeme. -/
theorem blank (h : writer.Spelled lexemes) : writer.blank.Spelled lexemes := by
  obtain ⟨parts, hlines, rfl⟩ := h
  unfold Writer.blank
  split
  · exact ⟨parts, hlines, rfl⟩
  · split
    · exact ⟨parts, hlines, rfl⟩
    · exact ⟨parts ++ [[]], List.rel_append hlines (.cons spells_empty .nil), by simp⟩

/-- Opening a block adds its header and a brace. -/
theorem openBlock (h : writer.Spelled lexemes) (htext : Spells text others) :
    (writer.openBlock text).Spelled (lexemes ++ (others ++ [.symbol '\x7b'])) := by
  have hbrace : Separates " \x7b" [.symbol '\x7b'] :=
    separates_of_isClosed (by decide) (by decide)
  exact h.append (htext.append_separates hbrace).spells _ _

/-- Closing a block adds a brace. -/
theorem closeBlock {after : Writer} (h : writer.Spelled lexemes)
    (hclose : writer.closeBlock = .ok after) : after.Spelled (lexemes ++ [.symbol '\x7d']) := by
  have hbrace : Leads "\x7d" [.symbol '\x7d'] := leads_of_isClosed (by decide) (by decide)
  unfold Writer.closeBlock at hclose
  split at hclose
  · cases hclose
  · cases hclose
    exact h.append hbrace.spells _ _

/-- A block spells its header and what is in it between braces. -/
theorem block {after : Writer} {body : List String} {parts : List (List Lexeme)}
    (h : writer.Spelled lexemes) (htext : Spells text others)
    (hbody : List.Forall₂ Spells body parts) (hblock : writer.block text body = .ok after) :
    after.Spelled (lexemes ++ (others ++ braced parts.flatten)) := by
  have hclosed := ((h.openBlock htext).foldl_line hbody).closeBlock hblock
  simpa [braced] using hclosed

/-- The complete text of a writer spells what was written. -/
theorem leads {text : String} (h : writer.Spelled lexemes) (hne : writer.lines ≠ [])
    (htext : writer.text = .ok text) : Leads text lexemes := by
  obtain ⟨parts, hlines, rfl⟩ := h
  unfold Writer.text at htext
  split at htext
  · cases htext
    exact leads_lines hne hlines
  · cases htext

end Spelled

/-- A way of writing adds lexemes to what was written before. -/
def Writes (write : Writer → Except Breakdown Writer) (lexemes : List Lexeme) : Prop :=
  ∀ writer after before, write writer = .ok after → writer.Spelled before →
    after.Spelled (before ++ lexemes)

namespace Writes

variable {write next : Writer → Except Breakdown Writer} {lexemes others : List Lexeme}

/-- Nothing is written. -/
theorem skip : Writes Except.ok [] := by
  rintro writer _ before ⟨⟩ hbefore
  simpa using hbefore

/-- One part is written after another. -/
theorem bind (hwrite : Writes write lexemes) (hnext : Writes next others) :
    Writes (fun writer => write writer >>= next) (lexemes ++ others) := by
  intro writer after before hafter hbefore
  obtain ⟨mid, hmid, hlater⟩ := exists_of_bind_eq_ok hafter
  rw [← List.append_assoc]
  exact hnext mid after _ hlater (hwrite writer mid before hmid hbefore)

/-- A block is written after a blank line. -/
theorem block {header : String} {body : List String} {parts : List (List Lexeme)}
    (hheader : Spells header lexemes) (hbody : List.Forall₂ Spells body parts) :
    Writes (fun writer => writer.blank.block header body) (lexemes ++ braced parts.flatten) :=
  fun _ _ _ hafter hbefore => hbefore.blank.block hheader hbody hafter

end Writes

end Writer

end EoJava.Java
