import EoJava.Proofs.Token.Joining
import EoJava.Proofs.Token.Places

/-!
# Reading what is tiled

A text on a line that is tiled by placed terminals is read as these (`content_of_tiles`), so tiles
say all that the scan of a line depends on. They can be moved to another line, and divided where one
terminal ends and the next has not started (`Tiles.divide`).
-/

namespace EoJava

open Grammar (Terminal)
open Text (isGap)

/-! ## Lexemes -/

namespace Lexing

/-- The spelling of a terminal starts with a character that counts, and it is read as a lexeme with
this terminal if what follows does not go on with it. -/
theorem next?_of_spelledBy {t : Terminal} {spelled rest : List Char} (h : t.SpelledBy spelled)
    (hends : ∀ c ∈ rest.head?, t.goesOn c = false) (offset : Nat) :
    ∃ c cs lexeme, spelled = c :: cs ∧ Text.IsVisible c ∧ lexeme.terminal = t ∧
      next? c (cs ++ rest) offset = .ok (lexeme, ⟨rest, offset + Text.width spelled⟩) := by
  -- Where the cursor ends up follows from what is left to read.
  suffices hfound : ∃ c cs lexeme, spelled = c :: cs ∧ Text.IsVisible c ∧ lexeme.terminal = t ∧
      ∃ after, next? c (cs ++ rest) offset = .ok (lexeme, ⟨rest, after⟩) by
    obtain ⟨c, cs, lexeme, rfl, hc, hterminal, after, hnext⟩ := hfound
    obtain ⟨found, heq, hafter, -⟩ := spelledBy_of_next? hnext
    obtain rfl : found = c :: cs := (List.append_cancel_right heq).symm
    obtain rfl : after = _ := hafter
    exact ⟨c, cs, lexeme, rfl, hc, hterminal, hnext⟩
  cases h with
  | @name text h =>
      obtain ⟨c, cs, htext, hc, hcs, hword⟩ := Grammar.isIdentifier_iff.1 h
      obtain ⟨after, hnext⟩ := next?_word hc hcs hends offset
      rw [← htext, String.ofList_toList, wordLexeme, hword] at hnext
      have hplain := Text.isPlain_of_isNamePart (Grammar.isNamePart_of_isNameStart hc)
      exact ⟨c, cs, _, htext, hplain.isVisible, rfl, after, hnext⟩
  | @number text h =>
      obtain ⟨c, cs, htext, -⟩ := Text.Numeral.exists_cons_of_isNumeral h
      have hplain := Text.isPlain_of_mem_numeral h
      have hrest : Text.Numeral.Ends rest := fun d hd => by
        simpa [Terminal.goesOn] using hends d hd
      rw [htext] at h hplain
      obtain ⟨after, hnext⟩ := next?_number h hrest offset
      rw [← htext, String.ofList_toList] at hnext
      exact ⟨c, cs, _, htext, (hplain c (List.mem_cons_self ..)).isVisible, rfl, after, hnext⟩
  | @string value raw h =>
      obtain ⟨after, hnext⟩ := next?_string h rest offset
      rw [String.ofList_toList] at hnext
      refine ⟨'"', raw ++ ['"'], .string value, rfl, by decide, rfl, after, ?_⟩
      rw [List.append_assoc]
      exact hnext
  | mark m =>
      by_cases hm : m ∈ Mark.keywords
      · have hrest : ∀ d ∈ rest.head?, isNamePart d = false := by
          intro d hd
          have hgoesOn := hends d hd
          cases m <;> first
            | exact absurd hm (by decide)
            | simpa [Terminal.goesOn, hm] using hgoesOn
        have hword : ∃ c cs, m.text.toList = c :: cs ∧ isNameStart c ∧
            (∀ d ∈ cs, isNamePart d) ∧ wordLexeme (String.ofList (c :: cs)) = .mark m := by
          cases m <;> first
            | exact absurd hm (by decide)
            | exact ⟨_, _, rfl, by decide, Text.forall_mem_of_all (by decide), rfl⟩
        obtain ⟨c, cs, htext, hc, hcs, hlexeme⟩ := hword
        obtain ⟨after, hnext⟩ := next?_word hc hcs hrest offset
        rw [hlexeme] at hnext
        have hplain := Text.isPlain_of_isNamePart (Grammar.isNamePart_of_isNameStart hc)
        exact ⟨c, cs, _, htext, hplain.isVisible, rfl, after, hnext⟩
      · obtain ⟨c, cs, htext, hc, -, htake⟩ := takeMark?_text hm
        have hmarks : ∀ c ∈ [':', ',', '(', ')', '@', '='], Text.IsVisible c :=
          Text.forall_mem_of_all (by decide)
        have hrest : m = .colon → ∀ d ∈ rest.head?, d ≠ '=' := by
          rintro rfl d hd
          exact beq_eq_false_iff_ne.1 (hends d hd)
        obtain ⟨after, hnext⟩ := next?_mark hc (htake rest hrest) offset
        exact ⟨c, cs, _, htext, hmarks c hc, rfl, after, hnext⟩

end Lexing

/-- The spelling of a terminal starts with a character that counts. -/
theorem Grammar.Terminal.SpelledBy.startsVisible {t : Terminal} {spelled : List Char}
    (h : t.SpelledBy spelled) : Text.StartsVisible spelled := by
  have hnil : ∀ c ∈ ([] : List Char).head?, t.goesOn c = false := nofun
  obtain ⟨c, cs, _, hspelled, hc, -⟩ := Lexing.next?_of_spelledBy h hnil 0
  exact ⟨c, cs, hspelled, hc⟩

/-- No spelling ends with a carriage return. -/
theorem Grammar.Terminal.SpelledBy.getLast?_ne {t : Terminal} {spelled : List Char}
    (h : t.SpelledBy spelled) : spelled.getLast? ≠ some '\r' := by
  cases h with
  | mark m => cases m <;> decide
  | name h =>
      obtain ⟨c, cs, htext, hc, hcs, -⟩ := Grammar.isIdentifier_iff.1 h
      intro hlast
      have hmem := List.mem_of_getLast? hlast
      rw [htext] at hmem
      rcases List.mem_cons.1 hmem with rfl | hmem
      · exact absurd hc (by decide)
      · exact absurd (hcs _ hmem) (by decide)
  | number h =>
      exact fun hlast => absurd (Text.isPlain_of_mem_numeral h _ (List.mem_of_getLast? hlast))
        (by decide)
  | @string value raw h =>
      rw [← List.cons_append, List.getLast?_concat]
      decide

/-- Of two spellings of a terminal at the front of a text neither is longer. -/
theorem Grammar.Terminal.SpelledBy.unique {t : Terminal} {spelled other rest more : List Char}
    (h : t.SpelledBy spelled) (hother : t.SpelledBy other) (heq : spelled ++ rest = other ++ more) :
    spelled = other := by
  cases h with
  | mark | name | number =>
      cases hother
      rfl
  | string h =>
      cases hother with
      | string hother =>
          simp only [List.cons_append, List.append_assoc, List.cons.injEq, true_and,
            List.nil_append] at heq
          obtain ⟨after, hread⟩ := Lexing.readString_of_unescapes h 0 rest
          obtain ⟨after', hread'⟩ := Lexing.readString_of_unescapes hother 0 more
          rw [heq, hread'] at hread
          cases hread
          rw [List.append_cancel_right heq]

/-- Only the empty text has no width. -/
theorem Text.eq_nil_of_width {text : List Char} (h : width text = 0) : text = [] := by
  cases text with
  | nil => rfl
  | cons c cs => exact absurd h (Nat.ne_of_gt (Nat.add_pos_left (units_pos c) _))

namespace Scan

variable {line : Int} {offset : Nat} {text : List Char} {placed : List (Located Terminal)}

/-! ## Tiled texts -/

/-- A text that is tiled by placed terminals is read as these. -/
theorem content_of_tiles (h : Tiles line offset text placed) (depth : Nat) :
    (content line depth ⟨text, offset⟩).Yields (placed.map (·.value))
      (openAfter depth (placed.map (·.value))) := by
  induction h generalizing depth with
  | done =>
      rw [content_nil]
      exact Reading.yields_pure depth
  | comment =>
      rw [content_cons, if_neg (by decide), if_pos rfl]
      exact Reading.yields_pure depth
  | gap hgap _ ih =>
      rw [content_cons, if_pos hgap]
      exact ih depth
  | @token offset t spelled rest placed hspelled hends _ ih =>
      obtain ⟨c, cs, lexeme, rfl, hc, rfl, hnext⟩ :=
        Lexing.next?_of_spelledBy hspelled hends offset
      rw [List.cons_append, content_cons, if_neg (by simp [hc.isGap]), if_neg hc.2, hnext]
      rw [List.map_cons, openAfter_cons, lexeme.depthAfter_terminal]
      exact (Reading.yields_emit _ _).bind (ih (lexeme.depthAfter depth))

/-- What tiles a text tiles it in any other place. -/
theorem Tiles.move (h : Tiles line offset text placed) (other : Int) (start : Nat) :
    ∃ moved, Tiles other start text moved ∧ moved.map (·.value) = placed.map (·.value) := by
  induction h generalizing start with
  | done => exact ⟨[], .done, rfl⟩
  | comment => exact ⟨[], .comment, rfl⟩
  | gap hgap _ ih =>
      obtain ⟨moved, htiles, hmoved⟩ := ih (start + 1)
      exact ⟨moved, .gap hgap htiles, hmoved⟩
  | @token offset t spelled rest placed hspelled hends _ ih =>
      obtain ⟨moved, htiles, hmoved⟩ := ih (start + Text.width spelled)
      exact ⟨_, .token hspelled hends htiles, congrArg (t :: ·) hmoved⟩

/-- Spaces and tabs may stand before a tiled text. -/
theorem Tiles.append_gap {space : List Char} (hspace : ∀ c ∈ space, isGap c)
    (h : Tiles line (offset + space.length) text placed) :
    Tiles line offset (space ++ text) placed := by
  induction space generalizing offset with
  | nil => exact h
  | cons c space ih =>
      obtain ⟨hc, hspace⟩ := List.forall_mem_cons.1 hspace
      refine .gap hc (ih hspace ?_)
      rwa [List.length_cons, Nat.add_comm space.length, ← Nat.add_assoc] at h

/-- Blank characters at the front of a tiled text are spaces and tabs. -/
theorem Tiles.drop_blanks {blanks : List Char} (hblanks : ∀ c ∈ blanks, Text.isBlank c)
    (h : Tiles line offset (blanks ++ text) placed) :
    Tiles line (offset + Text.width blanks) text placed := by
  induction blanks generalizing offset with
  | nil => exact h
  | cons c blanks ih =>
      obtain ⟨hc, hblanks⟩ := List.forall_mem_cons.1 hblanks
      generalize hwhole : c :: blanks ++ text = whole at h
      cases h with
      | done => cases hwhole
      | comment =>
          cases hwhole
          exact absurd hc (by decide)
      | gap hgap hrest =>
          cases hwhole
          rw [Text.width_cons, Text.units_of_isGap hgap, ← Nat.add_assoc]
          exact ih hblanks hrest
      | token hspelled =>
          obtain ⟨d, ds, rfl, hd⟩ := hspelled.startsVisible
          obtain ⟨rfl, -⟩ := List.cons.inj hwhole
          exact absurd (hd.1.symm.trans hc) Bool.false_ne_true

/-- A tiled text holds nothing exactly if it is tiled by nothing. -/
theorem Tiles.bare_iff (h : Tiles line offset text placed) : Bare text ↔ placed = [] := by
  constructor
  · rintro ⟨blanks, rest, rfl, hblanks, hrest⟩
    generalize hplaced : placed = all at h
    cases h.drop_blanks hblanks with
    | done | comment => rfl
    | gap hgap =>
        rcases hrest with hrest | hrest
        · cases hrest
        · cases hrest
          exact absurd hgap (by decide)
    | token hspelled =>
        obtain ⟨c, cs, rfl, hc⟩ := hspelled.startsVisible
        rcases hrest with hrest | hrest
        · cases hrest
        · cases hrest
          exact absurd rfl hc.2
  · intro hnone
    induction h with
    | done => exact ⟨[], [], rfl, List.forall_mem_nil _, .inl rfl⟩
    | comment => exact ⟨[], _, rfl, List.forall_mem_nil _, .inr rfl⟩
    | @gap offset c rest placed hgap _ ih =>
        obtain ⟨blanks, rest, rfl, hblanks, hrest⟩ := ih hnone
        refine ⟨c :: blanks, rest, rfl, List.forall_mem_cons.2 ⟨?_, hblanks⟩, hrest⟩
        exact Text.isBlank_of_isGap hgap
    | token => cases hnone

/-- Terminals that cover a text are placed before its end. -/
theorem Tiles.column_le (h : Tiles line offset text placed) : ∀ found ∈ placed,
    found.position.column ≤ offset + Text.width text := by
  intro found hfound
  obtain ⟨before, spelled, rest, rfl, hposition, hspelled⟩ := h.spelled found hfound
  have hpos := hspelled.width_pos
  rw [hposition, Text.width_append, Text.width_append]
  show (offset : Int) + Text.width before + 1 ≤ _
  omega

/-- Where a terminal is placed, its spelling ends before spaces and tabs, and there the text can be
divided: what is before and what is after is tiled by the terminals that are placed there. -/
theorem Tiles.divide {front spelled gap rest : List Char} {found : Located Terminal}
    (h : Tiles line offset (front ++ (spelled ++ gap) ++ rest) placed) (hfound : found ∈ placed)
    (hcolumn : found.position.column = offset + Text.width front + 1)
    (hspelled : found.value.SpelledBy spelled) (hgap : ∀ c ∈ gap, isGap c) :
    ∃ earlier later, placed = earlier ++ later ∧ earlier ≠ [] ∧
      Tiles line offset (front ++ (spelled ++ gap)) earlier ∧
      Tiles line (offset + Text.width (front ++ (spelled ++ gap))) rest later := by
  generalize hwhole : front ++ (spelled ++ gap) ++ rest = whole at h
  induction h generalizing front with
  | done | comment => cases hfound
  | @gap offset c others placed hc hothers ih =>
      have hright := hothers.sorted.1 found hfound
      cases front with
      | nil =>
          rw [hcolumn, Text.width_nil] at hright
          omega
      | cons d front =>
          cases hwhole
          have hcolumn' : found.position.column = (offset + 1 : Nat) + Text.width front + 1 := by
            rw [hcolumn, Text.width_cons, Text.units_of_isGap hc]
            omega
          obtain ⟨earlier, later, rfl, hne, hearlier, hlater⟩ := ih hfound hcolumn' rfl
          refine ⟨earlier, later, rfl, hne, .gap hc hearlier, ?_⟩
          rw [List.cons_append, Text.width_cons, Text.units_of_isGap hc, ← Nat.add_assoc]
          exact hlater
  | @token offset t first others placed hfirst hends hothers ih =>
      rcases List.mem_cons.1 hfound with rfl | hfound
      · -- The terminal is the first one, so nothing is before it.
        obtain rfl : front = [] := by
          refine Text.eq_nil_of_width ?_
          have heq : ((offset : Int) + 1) = offset + Text.width front + 1 := hcolumn
          omega
        rw [List.nil_append, List.append_assoc] at hwhole
        obtain rfl := hspelled.unique hfirst hwhole
        obtain rfl : gap ++ rest = others := List.append_cancel_left hwhole
        refine ⟨[⟨⟨line, offset + 1⟩, t⟩], placed, rfl, List.cons_ne_nil _ _, ?_, ?_⟩
        · have hends' : ∀ c ∈ gap.head?, t.goesOn c = false := fun c hc =>
            hends c (List.mem_head?_append_of_mem_head? hc)
          rw [List.nil_append]
          refine .token hspelled hends' ?_
          rw [← List.append_nil gap]
          exact .append_gap hgap .done
        · rw [List.nil_append, Text.width_append, ← Nat.add_assoc]
          exact hothers.drop_blanks fun c hc => Text.isBlank_of_isGap (hgap c hc)
      · have hright := hothers.sorted.1 found hfound
        -- The first terminal ends before the one that is looked for.
        obtain ⟨middle, rfl, rfl⟩ : ∃ middle, front = first ++ middle ∧
            others = middle ++ (spelled ++ gap) ++ rest := by
          rw [List.append_assoc] at hwhole
          rcases List.append_eq_append_iff.1 hwhole with ⟨more, rfl, hmore⟩ | ⟨middle, rfl, hmiddle⟩
          · rw [hcolumn, Text.width_append] at hright
            obtain rfl : more = [] := Text.eq_nil_of_width (by omega)
            exact ⟨[], by simp, by simpa using hmore.symm⟩
          · exact ⟨middle, rfl, by simpa using hmiddle⟩
        have hcolumn' : found.position.column =
            (offset + Text.width first : Nat) + Text.width middle + 1 := by
          rw [hcolumn, Text.width_append]
          omega
        obtain ⟨earlier, later, rfl, -, hearlier, hlater⟩ := ih hfound hcolumn' rfl
        refine ⟨_ :: earlier, later, rfl, List.cons_ne_nil _ _, ?_, ?_⟩
        · rw [List.append_assoc]
          exact .token hfirst
            (fun c hc => hends c (List.mem_head?_append_of_mem_head? hc)) hearlier
        · rw [List.append_assoc, Text.width_append first, ← Nat.add_assoc]
          exact hlater

end Scan

end EoJava
