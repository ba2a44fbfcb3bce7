import EoJava.Proofs.Token.Outcome
import EoJava.Proofs.Token.Scanning

/-!
# Lines covered by their tokens

`Tiles line offset text placed` says that a text, which stands on a line after so many units, is the
spellings of placed terminals in their order, with nothing but spaces and tabs between and around
them and perhaps a comment at the end. Each terminal is placed where its spelling starts, and no
spelling could go on with the character after it. Every line of a source that is read to its end is
covered in this way by the terminals that are placed on it (`covers_of_lines`).
-/

namespace EoJava

open Grammar (Terminal)

/-! ## Spellings -/

/-- The terminal is no layout, no line end and not the end of the source. -/
def Kind.isContent : Kind → Bool
  | .mark _ | .name | .string | .number => true
  | _ => false

/-- A lexeme as a terminal at its place. -/
def Lexeme.placed (found : Located Lexeme) : Located Terminal :=
  ⟨found.position, found.value.terminal⟩

namespace Grammar.Terminal

/-- A text is the spelling of a terminal in a source. -/
inductive SpelledBy : Terminal → List Char → Prop where
  | mark (m : Mark) : SpelledBy (.mark m) m.text.toList
  | name {text : String} (h : isIdentifier text) : SpelledBy (.name text) text.toList
  | number {text : String} (h : Text.Numeral.isNumeral text.toList) :
      SpelledBy (.number text) text.toList
  | string {value : String} {raw : List Char} (h : Lexing.Unescapes raw value.toList) :
      SpelledBy (.string value) ('"' :: (raw ++ ['"']))

/-- A character that may not follow a terminal directly. -/
def goesOn : Terminal → Char → Bool
  | .name _, c => Lexing.isNamePart c
  | .number _, c => c.isDigit || c == '.'
  | .mark .colon, c => c == '='
  | .mark m, c => m ∈ Mark.keywords && Lexing.isNamePart c
  | _, _ => false

/-- The spelling of a terminal is not empty. -/
theorem SpelledBy.width_pos {t : Terminal} {spelled : List Char} (h : t.SpelledBy spelled) :
    0 < Text.width spelled := by
  obtain ⟨c, cs, rfl⟩ : ∃ c cs, spelled = c :: cs := by
    cases h with
    | mark m => cases m <;> exact ⟨_, _, rfl⟩
    | name h =>
        obtain ⟨c, cs, htext, -⟩ := isIdentifier_iff.1 h
        exact ⟨c, cs, htext⟩
    | number h =>
        obtain ⟨c, cs, htext, -⟩ := Text.Numeral.exists_cons_of_isNumeral h
        exact ⟨c, cs, htext⟩
    | string h => exact ⟨_, _, rfl⟩
  exact Nat.add_pos_left (Text.units_pos c) _

/-- A terminal that is spelled in a source has content. -/
theorem SpelledBy.isContent {t : Terminal} {spelled : List Char} (h : t.SpelledBy spelled) :
    t.kind.isContent := by
  cases h <;> rfl

end Grammar.Terminal

/-! ## Lexemes -/

/-- What follows a numeral does not start with a digit. -/
theorem Text.Numeral.isDigit_of_takeMagnitude? {text taken rest : List Char}
    (h : takeMagnitude? text = some (taken, rest)) : ∀ c ∈ rest.head?, c.isDigit = false := by
  have hdrop (text : List Char) : ∀ c ∈ (text.dropWhile Char.isDigit).head?, c.isDigit = false := by
    intro c hc
    have := List.head?_dropWhile_not Char.isDigit text
    rwa [hc] at this
  simp only [takeMagnitude?] at h
  split at h
  · cases h
  · split at h
    · split at h
      · cases h
        rintro c ⟨⟩
        rfl
      · cases h
        exact hdrop _
    · cases h
      exact hdrop text

theorem Text.Numeral.isDigit_of_take? {text taken rest : List Char}
    (h : take? text = some (taken, rest)) : ∀ c ∈ rest.head?, c.isDigit = false := by
  unfold take? at h
  split at h
  · cases h
  · split at h
    · obtain ⟨⟨digits, after⟩, hdigits, heq⟩ := Option.map_eq_some_iff.1 h
      cases heq
      exact isDigit_of_takeMagnitude? hdigits
    · exact isDigit_of_takeMagnitude? h

namespace Lexing

variable {c : Char} {rest : List Char} {offset : Nat} {lexeme : Lexeme} {after : Text.Cursor}

/-- A word spells its lexeme. -/
theorem spelledBy_word {word : String} (h : (wordLexeme word).Legible) :
    (wordLexeme word).terminal.SpelledBy word.toList := by
  unfold wordLexeme at h ⊢
  split at h
  · next mark hmark =>
      have htext : mark.text = word := by simpa using List.find?_some hmark
      subst htext
      exact .mark mark
  · exact .name h.1

/-- A word does not go on with a character that is no part of names. -/
theorem goesOn_word (word : String) {c : Char} (h : isNamePart c = false) :
    (wordLexeme word).terminal.goesOn c = false := by
  unfold wordLexeme
  split
  · next mark hmark =>
      have hkeyword := List.mem_of_find?_eq_some hmark
      cases mark with
      | objectWord | asWord | trueWord | falseWord =>
          simp [Lexeme.terminal, Terminal.goesOn, h]
      | colon | comma | leftParen | rightParen | atSign | assign | equals =>
          exact absurd hkeyword (by decide)
  · exact h

/-- Of the marks of punctuation only the colon could go on. -/
theorem goesOn_mark {text : List Char} {mark : Mark} (h : takeMark? text = some (mark, rest)) :
    ∀ d ∈ rest.head?, (Terminal.mark mark).goesOn d = false := by
  unfold takeMark? at h
  split at h
  case h_8 => cases h
  case h_2 rest hassign =>
    cases h
    intro d hd
    obtain ⟨ds, rfl⟩ := List.head?_eq_some_iff.1 hd
    refine beq_eq_false_iff_ne.2 ?_
    rintro rfl
    exact hassign ds rfl
  all_goals
    cases h
    exact fun _ _ => rfl

/-- The lexeme at a place is spelled there, the cursor after it is where the spelling ends, and a
name, keyword or colon could not go on. -/
theorem spelledBy_of_next? (h : next? c rest offset = .ok (lexeme, after)) :
    ∃ spelled, c :: rest = spelled ++ after.rest ∧ after.offset = offset + Text.width spelled ∧
      lexeme.terminal.SpelledBy spelled ∧
      ∀ d ∈ after.rest.head?, d ≠ '.' → lexeme.terminal.goesOn d = false := by
  have hlegible := legible_of_next? h
  simp only [next?] at h
  split at h
  · cases h
    refine ⟨c :: rest.takeWhile isNamePart, ?_, rfl, ?_, fun d hd _ => goesOn_word _ ?_⟩
    · rw [List.cons_append]
      exact congrArg _ List.takeWhile_append_dropWhile.symm
    · simpa using spelledBy_word hlegible
    · have := List.head?_dropWhile_not isNamePart rest
      rwa [show (rest.dropWhile isNamePart).head? = some d from hd] at this
  · split at h
    · next numeral left htake =>
        cases h
        refine ⟨numeral, (Text.Numeral.append_of_take? htake).1.symm, rfl, ?_,
          fun d hd hpoint => ?_⟩
        · have hnumeral := Terminal.SpelledBy.number hlegible.1
          rwa [String.toList_ofList] at hnumeral
        · simp [Lexeme.terminal, Terminal.goesOn, Text.Numeral.isDigit_of_take? htake d hd, hpoint]
    · split at h
      · next hquote =>
          subst hquote
          split at h
          · next value found hread =>
              cases h
              obtain ⟨raw, rfl, hoffset, hraw⟩ := unescapes_of_readString hread
              refine ⟨'"' :: (raw ++ ['"']), by simp, ?_, .string ?_, fun _ _ _ => rfl⟩
              · have hunits : Text.units '"' = 1 := by decide
                simp only [hoffset, Text.width_append, Text.width_cons, Text.width_nil, hunits]
                omega
              · rwa [String.toList_ofList]
          · cases h
          · cases h
      · split at h
        · next mark left htake =>
            cases h
            exact ⟨mark.text.toList, append_of_takeMark? htake, rfl, .mark mark,
              fun d hd _ => goesOn_mark htake d hd⟩
        · cases h

/-- A lexeme that starts on a line has content. -/
theorem isContent_of_next? (h : next? c rest offset = .ok (lexeme, after)) :
    lexeme.terminal.kind.isContent := by
  obtain ⟨spelled, -, -, hspelled, -⟩ := spelledBy_of_next? h
  exact hspelled.isContent

/-- No lexeme starts with a point. -/
theorem next?_point (rest : List Char) (offset : Nat) :
    next? '.' rest offset = .error (offset, .unknownCharacter '.') := by
  simp only [next?, (by decide : isNameStart '.' = false),
    Text.Numeral.take?_of_head (by decide : '.' ≠ '-') (by decide)]
  rfl

end Lexing

/-! ## Lines -/

namespace Scan

/-- A text on a line after so many units is covered by placed terminals. -/
inductive Tiles (line : Int) : Nat → List Char → List (Located Terminal) → Prop where
  | done {offset : Nat} : Tiles line offset [] []
  | comment {offset : Nat} {rest : List Char} : Tiles line offset ('#' :: rest) []
  | gap {offset : Nat} {c : Char} {rest : List Char} {placed : List (Located Terminal)}
      (hgap : Text.isGap c) (h : Tiles line (offset + 1) rest placed) :
      Tiles line offset (c :: rest) placed
  | token {offset : Nat} {t : Terminal} {spelled rest : List Char}
      {placed : List (Located Terminal)} (hspelled : t.SpelledBy spelled)
      (hends : ∀ c ∈ rest.head?, t.goesOn c = false)
      (h : Tiles line (offset + Text.width spelled) rest placed) :
      Tiles line offset (spelled ++ rest) (⟨⟨line, offset + 1⟩, t⟩ :: placed)

/-- What is read to the end of its line does not start with a point. -/
theorem head_ne_point {line : Int} {depth last : Nat} {cursor : Text.Cursor}
    {met : List (Located Lexeme)} (h : content line depth cursor = ⟨met, .ok last⟩) :
    ∀ c ∈ cursor.rest.head?, c ≠ '.' := by
  rintro c hc rfl
  obtain ⟨rest, hrest⟩ := List.head?_eq_some_iff.1 hc
  obtain ⟨_, offset⟩ := cursor
  subst hrest
  rw [content] at h
  simp only [(by decide : Text.isGap '.' = false), Bool.false_eq_true, ↓reduceIte,
    (by decide : '.' ≠ '#')] at h
  split at h
  · next hmet =>
      rw [Lexing.next?_point] at hmet
      cases hmet
  · cases h

/-- A text that is read to the end of its line is covered by what is met. -/
theorem tiles_of_content {line : Int} {depth last : Nat} {cursor : Text.Cursor}
    {met : List (Located Lexeme)} (h : content line depth cursor = ⟨met, .ok last⟩) :
    Tiles line cursor.offset cursor.rest (met.map Lexeme.placed) := by
  fun_induction content line depth cursor generalizing met with
  | case1 depth cursor hrest =>
      cases h
      rw [hrest]
      exact .done
  | case2 depth cursor c rest hrest hgap ih =>
      rw [hrest]
      exact .gap hgap (ih h)
  | case3 depth cursor rest hrest =>
      cases h
      rw [hrest]
      exact .comment
  | case4 depth cursor c rest hrest hgap hcomment lexeme after hmet ih =>
      obtain ⟨_, _, later, hemit, hlater, rfl⟩ := Reading.bind_eq_ok_iff.1 h
      cases hemit
      obtain ⟨spelled, htext, hoffset, hspelled, hends⟩ := Lexing.spelledBy_of_next? hmet
      have htiles := ih hlater
      rw [hoffset] at htiles
      rw [hrest, htext]
      exact .token hspelled (fun d hd => hends d hd (head_ne_point hlater d hd)) htiles
  | case5 => cases h

/-- Terminals that cover a text have content, and they are on its line. -/
theorem Tiles.content_line {line : Int} {offset : Nat} {text : List Char}
    {placed : List (Located Terminal)} (h : Tiles line offset text placed) :
    ∀ found ∈ placed, found.value.kind.isContent ∧ found.position.line = line := by
  induction h with
  | done | comment => exact List.forall_mem_nil _
  | gap _ _ ih => exact ih
  | @token offset t spelled rest placed hspelled _ _ ih =>
      exact List.forall_mem_cons.2 ⟨⟨hspelled.isContent, rfl⟩, ih⟩

/-! ## Sources -/

/-- The placed terminals with content on a line. -/
def contentOn (line : Int) (placed : List (Located Terminal)) : List (Located Terminal) :=
  placed.filter fun found => found.value.kind.isContent && found.position.line == line

@[simp]
theorem contentOn_append (line : Int) (placed more : List (Located Terminal)) :
    contentOn line (placed ++ more) = contentOn line placed ++ contentOn line more :=
  List.filter_append ..

theorem contentOn_eq_nil {line : Int} {placed : List (Located Terminal)}
    (h : ∀ found ∈ placed, found.value.kind.isContent → found.position.line ≠ line) :
    contentOn line placed = [] := by
  refine List.filter_eq_nil_iff.2 fun found hfound => ?_
  simpa using h found hfound

/-- Terminals that are not on a line, or have no content, do not count there. -/
theorem contentOn_append_left {line : Int} {placed more : List (Located Terminal)}
    (h : ∀ found ∈ more, found.value.kind.isContent → found.position.line ≠ line) :
    contentOn line (placed ++ more) = contentOn line placed := by
  rw [contentOn_append, contentOn_eq_nil h, List.append_nil]

theorem contentOn_append_right {line : Int} {placed more : List (Located Terminal)}
    (h : ∀ found ∈ placed, found.value.kind.isContent → found.position.line ≠ line) :
    contentOn line (placed ++ more) = contentOn line more := by
  rw [contentOn_append, contentOn_eq_nil h, List.nil_append]

theorem Tiles.contentOn_eq {line : Int} {offset : Nat} {text : List Char}
    {placed : List (Located Terminal)} (h : Tiles line offset text placed) :
    contentOn line placed = placed :=
  List.filter_eq_self.2 fun found hfound => by simpa using h.content_line found hfound

/-- A line is bare if nothing but blank characters stands on it before a comment. -/
def Bare (text : List Char) : Prop :=
  ∃ blanks rest, text = blanks ++ rest ∧ (∀ c ∈ blanks, Text.isBlank c) ∧
    (rest = [] ∨ rest.head? = some '#')

/-- Lines are covered by placed terminals, counting from a number: those of a line come before those
of later lines; a bare line has none with content, and any other line is tiled by those on it. -/
structure Covers (number : Int) (texts : List (List Char)) (placed : List (Located Terminal)) :
    Prop where
  ordered : placed.Pairwise fun first second => first.position.line ≤ second.position.line
  bare : ∀ (i : Nat) text, texts[i]? = some text → Bare text → contentOn (number + i) placed = []
  tiles : ∀ (i : Nat) text, texts[i]? = some text → ¬ Bare text →
    Tiles (number + i) 0 text (contentOn (number + i) placed)
  lines : ∀ found ∈ placed, found.value.kind.isContent →
    ∃ i : Nat, i < texts.length ∧ found.position.line = number + i

/-- A line holds nothing if it is bare. -/
theorem holdsNothing_iff_bare {text : List Char} : Text.holdsNothing text ↔ Bare text := by
  constructor
  · intro h
    refine ⟨text.takeWhile Text.isBlank, text.dropWhile Text.isBlank,
      List.takeWhile_append_dropWhile.symm, fun c hc => List.mem_takeWhile_imp hc, ?_⟩
    unfold Text.holdsNothing at h
    split at h
    · next hrest => exact .inl hrest
    · next c cs hrest =>
        rw [hrest]
        exact .inr (congrArg some (eq_of_beq h))
  · rintro ⟨blanks, rest, rfl, hblanks, hrest⟩
    have hstops : ∀ c ∈ rest.head?, Text.isBlank c = false := by
      intro c hc
      rcases hrest with rfl | hrest
      · cases hc
      · rw [hrest] at hc
        cases hc
        decide
    rw [Text.holdsNothing, Text.dropWhile_run hblanks hstops]
    rcases hrest with rfl | hrest
    · rfl
    · obtain ⟨cs, rfl⟩ := List.head?_eq_some_iff.1 hrest
      rfl

theorem holdsNothing_eq_false_iff {text : List Char} :
    Text.holdsNothing text = false ↔ ¬ Bare text := by
  rw [← holdsNothing_iff_bare, Bool.not_eq_true]

instance : DecidablePred Bare :=
  fun _ => decidable_of_iff _ holdsNothing_iff_bare

/-- The lexemes of a layout have no content. -/
theorem isContent_of_enter (layout : Layout) (number : Int) (text : List Char) :
    ∀ found ∈ (layout.enter number text).lexemes,
      found.value.terminal.kind.isContent = false := by
  intro found hfound
  cases (Layout.within_enter number layout text).lexemes found hfound <;> rfl

/-- A settled line is tiled by its lexemes with content. -/
theorem tiles_of_settled {number : Int} {text : List Char} {layout last : Layout}
    {met : List (Located Lexeme)} (h : settled number text layout = ⟨met, .ok last⟩) :
    Tiles number 0 text (contentOn number (met.map Lexeme.placed)) := by
  rw [settled_eq] at h
  obtain ⟨depth, earlier, later, hcontent, hend, rfl⟩ := Reading.bind_eq_ok_iff.1 h
  have htiles := tiles_of_content hcontent
  rw [List.map_append, contentOn_append_left, htiles.contentOn_eq]
  · exact htiles
  · cases hend
    refine List.forall_mem_map.2 fun found hfound hkind => ?_
    split at hfound
    · rw [List.mem_singleton.1 hfound] at hkind
      cases hkind
    · cases hfound

/-- A line that is read to its end has no content, or is tiled by the content that is met. -/
theorem tiles_of_line {number : Int} {layout last : Layout} {text : List Char}
    {met : List (Located Lexeme)} (h : line number layout text = ⟨met, .ok last⟩) :
    (Bare text → met = []) ∧
      (¬ Bare text → Tiles number 0 text (contentOn number (met.map Lexeme.placed))) := by
  rw [← holdsNothing_iff_bare]
  cases hbare : Text.holdsNothing text with
  | true =>
      rw [line_of_bare number layout hbare] at h
      exact ⟨fun _ => (Reading.eq_pure_iff.1 h).1, fun hnot => absurd rfl hnot⟩
  | false =>
      refine ⟨nofun, fun _ => ?_⟩
      by_cases hdepth : layout.depth = 0
      · rw [line_of_outside number hbare hdepth] at h
        obtain ⟨entered, earlier, later, henter, hsettled, rfl⟩ := Reading.bind_eq_ok_iff.1 h
        rw [List.map_append, contentOn_append_right]
        · exact tiles_of_settled hsettled
        · refine List.forall_mem_map.2 fun found hfound hkind => ?_
          have hnone := isContent_of_enter layout number text found (by rwa [henter])
          rw [Lexeme.placed, hnone] at hkind
          cases hkind
      · rw [line_of_inside number hbare hdepth] at h
        exact tiles_of_settled h

/-- What is on one line is in order. -/
theorem pairwise_of_line {line : Int} {placed : List (Located Terminal)}
    (h : ∀ found ∈ placed, found.position.line = line) :
    placed.Pairwise fun first second => first.position.line ≤ second.position.line :=
  List.pairwise_of_forall_mem_list fun a ha b hb => Int.le_of_eq ((h a ha).trans (h b hb).symm)

section

variable {number last : Int} {text : List Char} {texts : List (List Char)}
  {placed later : List (Located Terminal)}

/-- A line has what was met there, and every other line what was met later. -/
theorem Covers.cons (hline : ∀ found ∈ placed, found.position.line = number)
    (hlater : ∀ found ∈ later, number + 1 ≤ found.position.line) (hbare : Bare text → placed = [])
    (htiles : ¬ Bare text → Tiles number 0 text (contentOn number placed))
    (h : Covers (number + 1) texts later) : Covers number (text :: texts) (placed ++ later) := by
  -- Lines are counted from the first one, which is the only one with a place in `placed`.
  have hzero : contentOn number (placed ++ later) = contentOn number placed := by
    refine contentOn_append_left fun found hfound _ heq => ?_
    have := hlater found hfound
    omega
  have hsucc (i : Nat) : contentOn (number + (i + 1 : Nat)) (placed ++ later) =
      contentOn (number + 1 + i) later := by
    rw [contentOn_append_right, show number + ((i + 1 : Nat) : Int) = number + 1 + i by omega]
    intro found hfound _ heq
    have := hline found hfound
    omega
  refine ⟨?_, fun i line hget hvisible => ?_, fun i line hget hvisible => ?_, ?_⟩
  · refine List.pairwise_append.2 ⟨pairwise_of_line hline, h.ordered, fun a ha b hb => ?_⟩
    have := hline a ha
    have := hlater b hb
    omega
  · cases i with
    | zero =>
        cases hget
        rw [Int.natCast_zero, Int.add_zero, hzero, hbare hvisible]
        rfl
    | succ i => exact (hsucc i).trans (h.bare i line hget hvisible)
  · cases i with
    | zero =>
        cases hget
        rw [Int.natCast_zero, Int.add_zero, hzero]
        exact htiles hvisible
    | succ i =>
        rw [hsucc i, show number + ((i + 1 : Nat) : Int) = number + 1 + i by omega]
        exact h.tiles i line hget hvisible
  · refine List.forall_mem_append.2 ⟨fun found hfound _ => ?_, fun found hfound hkind => ?_⟩
    · exact ⟨0, by simp, by simpa using hline found hfound⟩
    · obtain ⟨i, hi, hat⟩ := h.lines found hfound hkind
      exact ⟨i + 1, by simpa using hi, by omega⟩

/-- Terminals without content may follow on the last line. -/
theorem Covers.append (h : Covers number texts placed)
    (hplaced : ∀ found ∈ placed, found.position.line ≤ last)
    (hlater : ∀ found ∈ later, found.value.kind.isContent = false ∧ found.position.line = last) :
    Covers number texts (placed ++ later) := by
  have hnone : ∀ found ∈ later, ¬ found.value.kind.isContent := fun found hfound hkind => by
    rw [(hlater found hfound).1] at hkind
    cases hkind
  have hsame (line : Int) : contentOn line (placed ++ later) = contentOn line placed :=
    contentOn_append_left fun found hfound hkind => absurd hkind (hnone found hfound)
  refine ⟨?_, fun i text hget hbare => ?_, fun i text hget hbare => ?_, ?_⟩
  · refine List.pairwise_append.2 ⟨h.ordered, pairwise_of_line fun a ha => (hlater a ha).2, ?_⟩
    exact fun a ha b hb => Int.le_trans (hplaced a ha) (Int.le_of_eq (hlater b hb).2.symm)
  · rw [hsame]
    exact h.bare i text hget hbare
  · rw [hsame]
    exact h.tiles i text hget hbare
  · exact List.forall_mem_append.2
      ⟨h.lines, fun found hfound hkind => absurd hkind (hnone found hfound)⟩

end

/-- Lines that are read to their end are covered by what is met. -/
theorem covers_of_lines {number : Int} {layout : Layout} {texts : List (List Char)}
    {met : List (Located Lexeme)} {last : Int × Layout}
    (h : lines number layout texts = ⟨met, .ok last⟩) :
    Covers number texts (met.map Lexeme.placed) := by
  induction texts generalizing number layout met with
  | nil =>
      obtain ⟨rfl, -⟩ := Reading.eq_pure_iff.1 h
      exact ⟨.nil, nofun, nofun, nofun⟩
  | cons text texts ih =>
      obtain ⟨next, earlier, later, hline, hlines, rfl⟩ := Reading.bind_eq_ok_iff.1 h
      have hfirst : ∀ found ∈ (line number layout text).lexemes, found.position.line = number :=
        fun found hfound => ((within_line number layout text).lexemes found hfound).line
      have hothers := (on_lines (number + 1) next texts).lexemes
      rw [hline] at hfirst
      rw [hlines] at hothers
      obtain ⟨hbare, htiles⟩ := tiles_of_line hline
      rw [List.map_append]
      refine .cons (List.forall_mem_map.2 hfirst)
        (List.forall_mem_map.2 fun found hfound => (hothers found hfound).1) (fun h => ?_) htiles
        (ih hlines)
      rw [hbare h]
      rfl

/-- A source that is read to its end is covered by what is met. -/
theorem covers_of_source {source : List Char} {met : List (Located Lexeme)}
    (h : Scan.source source = ⟨met, .ok ()⟩) :
    Covers 1 (Text.lines (Text.dropMark source)) (met.map Lexeme.placed) := by
  obtain ⟨⟨last, layout⟩, earlier, later, hlines, hend, rfl⟩ := Reading.bind_eq_ok_iff.1 h
  have hlater : ∀ found ∈ later, found.value.terminal.kind.isContent = false ∧
      found.position.line = last := by
    obtain ⟨_, closing, ending, hclose, hemit, rfl⟩ := Reading.bind_eq_ok_iff.1 hend
    have hclosing := (within_closeAll (Q := fun _ => True) last layout.widths).lexemes
    rw [hclose] at hclosing
    cases hemit
    refine List.forall_mem_append.2 ⟨fun found hfound => ?_, List.forall_mem_singleton.2 ⟨rfl, rfl⟩⟩
    obtain ⟨depth, rfl⟩ := hclosing found hfound
    exact ⟨rfl, rfl⟩
  have hearlier : ∀ found ∈ earlier, found.position.line ≤ last := by
    intro found hfound
    have hlast := last_of_lines hlines
    have := ((on_lines 1 {} (Text.lines (Text.dropMark source))).lexemes found (by rwa [hlines])).2
    omega
  rw [List.map_append]
  exact (covers_of_lines hlines).append (List.forall_mem_map.2 hearlier)
    (List.forall_mem_map.2 hlater)

end Scan

end EoJava
