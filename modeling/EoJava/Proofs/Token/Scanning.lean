import EoJava.Proofs.Grammar.Legible
import EoJava.Proofs.Token.Sites

/-!
# What a scan meets

Every lexeme of a source is legible, and a problem of a scan belongs to the lexical stage. The end
of the source is met last, and only by a scan without a problem (`source_cases`). A string that is
met stands in the source between quotes (`quotedAt_of_met`).
-/

namespace EoJava

open Grammar (Terminal)

/-- The lexeme can be printed and read again, and it is not the end of its source. -/
def Lexeme.Legible (lexeme : Lexeme) : Prop :=
  lexeme.terminal.Legible ∧ lexeme.terminal ≠ .endOfInput

namespace Lexeme

theorem legible_mark (m : Mark) : (mark m).Legible :=
  ⟨trivial, by simp [terminal]⟩

theorem legible_newline : newline.Legible :=
  ⟨trivial, by simp [terminal]⟩

theorem legible_indent (depth : Nat) : (indent depth).Legible :=
  ⟨trivial, by simp [terminal]⟩

theorem legible_dedent (depth : Nat) : (dedent depth).Legible :=
  ⟨trivial, by simp [terminal]⟩

theorem legible_string (value : String) : (string value).Legible :=
  ⟨trivial, by simp [terminal]⟩

end Lexeme

/-! ## Lexemes of a line -/

namespace Lexing

theorem legible_wordLexeme {c : Char} {cs : List Char} (hc : isNameStart c) :
    (wordLexeme (String.ofList (c :: cs.takeWhile isNamePart))).Legible := by
  unfold wordLexeme
  split
  · exact Lexeme.legible_mark _
  · next hword =>
      refine ⟨?_, by simp [Lexeme.terminal]⟩
      exact Grammar.isIdentifier_iff.2 ⟨c, _, String.toList_ofList, hc,
        fun d hd => List.mem_takeWhile_imp hd, hword⟩

variable {c : Char} {rest : List Char} {offset : Nat}

/-- A lexeme that is found is legible. -/
theorem legible_of_next? {lexeme : Lexeme} {after : Text.Cursor}
    (h : next? c rest offset = .ok (lexeme, after)) : lexeme.Legible := by
  simp only [next?] at h
  split at h
  · next hc =>
      cases h
      exact legible_wordLexeme hc
  · split at h
    · next numeral left htake =>
        cases h
        refine ⟨?_, by simp [Lexeme.terminal]⟩
        simpa [Lexeme.terminal, Terminal.Legible] using Text.Numeral.isNumeral_of_take? htake
    · split at h
      · split at h
        · cases h
          exact Lexeme.legible_string _
        · cases h
        · cases h
      · split at h
        · cases h
          exact Lexeme.legible_mark _
        · cases h

/-- A problem that is found is lexical. -/
theorem stage_of_next? {place : Nat} {problem : Problem}
    (h : next? c rest offset = .error (place, problem)) : problem.code.stage = .lex := by
  simp only [next?] at h
  split at h
  · cases h
  · split at h
    · cases h
    · split at h
      · split at h
        · cases h
        · cases h
          rfl
        · cases h
          rfl
      · split at h
        · cases h
        · cases h
          rfl

end Lexing

/-! ## Lexemes of a source -/

namespace Scan

variable {number : Int} {text : List Char}

theorem Gives.legible {found : Located Lexeme} (h : Gives number text found) :
    found.value.Legible := by
  cases h with
  | layout h =>
      cases h with
      | indent depth => exact Lexeme.legible_indent depth
      | dedent depth => exact Lexeme.legible_dedent depth
  | newline => exact Lexeme.legible_newline
  | lexeme _ hnext => exact Lexing.legible_of_next? hnext

theorem Stops.stage {found : Located Problem} (h : Stops number text found) :
    found.value.code.stage = .lex := by
  cases h with
  | layout h => cases h <;> rfl
  | lexeme _ hnext => exact Lexing.stage_of_next? hnext

/-- A run of lines gives legible lexemes, and only a lexical problem stops it. -/
theorem legible_lines (number : Int) (layout : Layout) (texts : List (List Char)) :
    (lines number layout texts).Within (·.value.Legible) (·.value.code.stage = .lex) := by
  refine (within_lines number layout texts).imp (fun found hfound => ?_) fun found hfound => ?_
  · obtain ⟨i, text, -, hgives⟩ := hfound
    exact hgives.legible
  · obtain ⟨i, text, -, hstops⟩ := hfound
    exact hstops.stage

theorem legible_closeAll {Q : Located Problem → Prop} (number : Int) (widths : List Nat) :
    (closeAll number widths).Within (·.value.Legible) Q := by
  refine (within_closeAll number widths).imp (fun found h => ?_) fun _ h => h
  obtain ⟨depth, rfl⟩ := h
  exact Lexeme.legible_dedent depth

/-- A scan meets legible lexemes and the end of the source, or it stops at a lexical problem. -/
theorem source_cases (text : List Char) :
    (∃ init position, source text = ⟨init ++ [⟨position, .endOfInput⟩], .ok ()⟩ ∧
        ∀ found ∈ init, found.value.Legible) ∨
      ∃ lexemes problem, source text = ⟨lexemes, .error problem⟩ ∧ problem.value.code.stage = .lex ∧
        ∀ found ∈ lexemes, found.value.Legible := by
  have hlines := legible_lines 1 {} (Text.lines (Text.dropMark text))
  have hsource : source text = Reading.bind (lines 1 {} (Text.lines (Text.dropMark text)))
      fun found => Reading.bind (closeAll found.1 found.2.widths)
        fun _ => Reading.emit ⟨found.1, 1⟩ .endOfInput := rfl
  rcases hread : lines 1 {} (Text.lines (Text.dropMark text)) with ⟨lexemes, _ | ⟨last, layout⟩⟩
  · rw [hread] at hlines hsource
    exact .inr ⟨_, _, hsource, hlines.problem _ rfl, hlines.lexemes⟩
  · have hclose := (legible_closeAll (Q := fun _ => True) last layout.widths).lexemes
    have hdone := outcome_closeAll last layout.widths
    rw [hread] at hlines hsource
    rcases hclosed : closeAll last layout.widths with ⟨closing, outcome⟩
    rw [hclosed] at hclose hdone
    obtain rfl : outcome = .ok () := hdone
    refine .inl ⟨lexemes ++ closing, ⟨last, 1⟩, ?_,
      List.forall_mem_append.2 ⟨hlines.lexemes, hclose⟩⟩
    rw [hsource]
    simp only [Reading.bind, hclosed, Reading.emit, List.append_assoc]

/-- The terminal of a lexeme that is met in a source is legible. -/
theorem legible_of_met {source : List Char} {found : Located Lexeme}
    (hmet : found ∈ (Scan.source source).lexemes) : found.value.terminal.Legible := by
  obtain ⟨init, position, hsource, hinit⟩ | ⟨lexemes, problem, hsource, -, hlexemes⟩ :=
    source_cases source
  · rw [hsource] at hmet
    rcases List.mem_append.1 hmet with hmet | hmet
    · exact (hinit found hmet).1
    · rw [List.mem_singleton.1 hmet]
      trivial
  · rw [hsource] at hmet
    exact (hlexemes found hmet).1

/-- A number that is met in a source is a numeral. -/
theorem isNumeral_of_met {source : List Char} {found : Located Lexeme} {text : String}
    (hmet : found ∈ (Scan.source source).lexemes) (hnumber : found.value = .number text) :
    Text.Numeral.isNumeral text.toList := by
  have hlegible := legible_of_met hmet
  rwa [hnumber] at hlegible

/-- A name that is met in a source is an identifier. -/
theorem isIdentifier_of_met {source : List Char} {found : Located Lexeme} {text : String}
    (hmet : found ∈ (Scan.source source).lexemes) (hname : found.value = .name text) :
    isIdentifier text := by
  have hlegible := legible_of_met hmet
  rwa [hname] at hlegible

/-! ## Strings -/

/-- A string literal with a value starts at a position of a source. -/
def QuotedAt (source : List Char) (position : Position) (value : String) : Prop :=
  ∃ (i : Nat) (text : List Char) (offset : Nat),
    (Text.lines (Text.dropMark source))[i]? = some text ∧ position = ⟨1 + i, offset + 1⟩ ∧
      Lexing.Quotes text offset value

/-- A string that a line gives is quoted there. -/
theorem Closes.quoted {found : Located Lexeme} {value : String} (h : Closes number text found)
    (hvalue : found.value = .string value) :
    ∃ offset : Nat, found.position = ⟨number, offset + 1⟩ ∧ Lexing.Quotes text offset value := by
  obtain h | rfl := h
  · cases h with
    | layout h => cases h <;> cases hvalue
    | newline => cases hvalue
    | lexeme hhere hnext =>
        exact ⟨_, rfl, (Lexing.standsIn_of_next? hnext hhere).2 value hvalue⟩
  · cases hvalue

/-- A string that is met in a source is quoted where it is met. -/
theorem quotedAt_of_met {text : List Char} {found : Located Lexeme} {value : String}
    (hmet : found ∈ (source text).lexemes) (hvalue : found.value = .string value) :
    QuotedAt text found.position value := by
  obtain ⟨i, line, hline, hcloses⟩ := (within_source text).lexemes found hmet
  obtain ⟨offset, hposition, hquotes⟩ := hcloses.quoted hvalue
  exact ⟨i, line, offset, hline, hposition, hquotes⟩

end Scan

end EoJava
