import EoJava.Proofs.Grammar.Parsing
import EoJava.Proofs.Source.Written
import EoJava.Proofs.Token.Strings

/-!
# Reading a line

`Spells text ts` says that a text on a line is read as lexemes with the terminals `ts`, wherever it
stands, if what follows it stands apart. Names, numbers, strings, marks and spaces may be put before
such a text, and two such texts may be put together.
-/

namespace EoJava

open Grammar (Terminal isIdentifier_iff)

namespace Reading

variable {α : Type}

/-- A reading that comes after lexemes that were met before. -/
def after (met : List (Located Lexeme)) (reading : Reading α) : Reading α :=
  ⟨met ++ reading.lexemes, reading.outcome⟩

/-- Nothing was met before. -/
@[simp]
theorem after_nil (reading : Reading α) : reading.after [] = reading :=
  rfl

/-- What was met before what was met before comes first. -/
@[simp]
theorem after_after (met later : List (Located Lexeme)) (reading : Reading α) :
    (reading.after later).after met = reading.after (met ++ later) := by
  simp [after]

end Reading

/-- The parentheses open after a lexeme are those open after its terminal. -/
theorem Lexeme.depthAfter_terminal (depth : Nat) (lexeme : Lexeme) :
    Kind.depthAfter depth lexeme.terminal.kind = lexeme.depthAfter depth := by
  cases lexeme <;> rfl

/-! ## Characters -/

namespace Text

/-- A character that counts at the edge of a line and starts no comment. -/
def IsVisible (c : Char) : Prop :=
  isBlank c = false ∧ c ≠ '#'

instance (c : Char) : Decidable (IsVisible c) :=
  inferInstanceAs (Decidable (_ ∧ _))

/-- The first character of a text is visible. -/
def StartsVisible (text : List Char) : Prop :=
  ∃ c cs, text = c :: cs ∧ IsVisible c

/-- Text that starts with a visible character does so however it goes on. -/
theorem StartsVisible.append {text : List Char} (h : StartsVisible text) (more : List Char) :
    StartsVisible (text ++ more) := by
  obtain ⟨c, cs, rfl, hc⟩ := h
  exact ⟨c, cs ++ more, rfl, hc⟩

/-- Tabs and spaces do not count at the edge of a line. -/
theorem isBlank_of_isGap {c : Char} (h : isGap c) : isBlank c := by
  simp only [isGap, Bool.or_eq_true, beq_iff_eq] at h
  rcases h with rfl | rfl <;> decide

/-- A visible character is no tab and no space. -/
theorem IsVisible.isGap {c : Char} (h : IsVisible c) : isGap c = false :=
  Bool.eq_false_iff.2 fun hgap => Bool.false_ne_true (h.1.symm.trans (isBlank_of_isGap hgap))

/-- A character that is printed in ASCII and comes after the comment mark. -/
def IsPlain (c : Char) : Prop :=
  0x23 < c.toNat ∧ c.toNat < 0x7F

instance (c : Char) : Decidable (IsPlain c) :=
  inferInstanceAs (Decidable (_ ∧ _))

/-- A plain character is visible. -/
theorem IsPlain.isVisible {c : Char} (h : IsPlain c) : IsVisible c := by
  obtain ⟨hlow, hhigh⟩ := h
  refine ⟨?_, ?_⟩
  · simp only [isBlank, Bool.or_eq_false_iff, Bool.and_eq_false_iff, decide_eq_false_iff_not,
      beq_eq_false_iff_ne, ne_eq]
    omega
  · rintro rfl
    exact absurd hlow (by decide)

/-- All characters of names are plain. -/
theorem isPlain_of_isNamePart {c : Char} (h : Lexing.isNamePart c) : IsPlain c := by
  simp only [Lexing.isNamePart, Char.isAlphanum, Bool.or_eq_true, beq_iff_eq, Grammar.isAlpha_iff,
    Grammar.isDigit_iff] at h
  rcases h with h | rfl
  · simp only [IsPlain]
    omega
  · decide

/-- All digits are plain. -/
theorem isPlain_of_isDigit {c : Char} (h : c.isDigit) : IsPlain c :=
  isPlain_of_isNamePart (by simp [Lexing.isNamePart, Char.isAlphanum, h])

/-- The characters of a numeral are plain. -/
theorem isPlain_of_mem_numeral {text : List Char} (h : Numeral.isNumeral text) :
    ∀ c ∈ text, IsPlain c := by
  obtain ⟨sign, whole, fraction, rfl, hsign, hwhole, hfraction⟩ := Numeral.isNumeral_iff.1 h
  refine List.forall_mem_append.2 ⟨?_, List.forall_mem_append.2 ⟨?_, ?_⟩⟩
  · rcases hsign with rfl | rfl <;> exact forall_mem_of_all (by decide)
  · exact fun c hc => isPlain_of_isDigit (hwhole.2 c hc)
  · rcases hfraction with rfl | ⟨digits, rfl, hdigits⟩
    · simp
    · exact List.forall_mem_cons.2 ⟨by decide, fun c hc => isPlain_of_isDigit (hdigits.2 c hc)⟩

/-- A character that ends no line. -/
def IsInline (c : Char) : Prop :=
  c ≠ '\n' ∧ c ≠ '\r'

instance (c : Char) : Decidable (IsInline c) :=
  inferInstanceAs (Decidable (_ ∧ _))

/-- A plain character ends no line. -/
theorem IsPlain.isInline {c : Char} (h : IsPlain c) : IsInline c :=
  ⟨fun heq => absurd (heq ▸ h) (by decide), fun heq => absurd (heq ▸ h) (by decide)⟩

end Text

namespace Lexing

/-- What may follow a name or a number on a line. -/
def Apart (rest : List Char) : Prop :=
  ∀ c ∈ rest.head?, c ∈ [' ', ',', '(', ')', ':']

/-- Nothing follows at the end of a line, and that stands apart. -/
theorem apart_nil : Apart [] :=
  fun _ h => by cases h

/-- Spaces, commas, parentheses and colons stand apart from what is before them. -/
theorem apart_cons {c : Char} {rest : List Char} (h : c ∈ [' ', ',', '(', ')', ':']) :
    Apart (c :: rest) := by
  rintro d ⟨⟩
  exact h

/-- A text before what stands apart stands apart if it does by itself. -/
theorem Apart.append {text rest : List Char} (h : Apart text) (hrest : Apart rest) :
    Apart (text ++ rest) := by
  cases text with
  | nil => exact hrest
  | cons c cs => exact h

/-- What stands apart does not continue a name. -/
theorem Apart.not_namePart {rest : List Char} (h : Apart rest) :
    ∀ c ∈ rest.head?, isNamePart c = false := by
  have hmarks : ∀ c ∈ [' ', ',', '(', ')', ':'], isNamePart c = false :=
    Text.forall_mem_of_all (by decide)
  exact fun c hc => hmarks c (h c hc)

/-- What stands apart does not continue a number. -/
theorem Apart.ends {rest : List Char} (h : Apart rest) : Text.Numeral.Ends rest := by
  have hmarks : ∀ c ∈ [' ', ',', '(', ')', ':'], c.isDigit = false ∧ c ≠ '.' :=
    Text.forall_mem_of_all (by decide)
  exact fun c hc => hmarks c (h c hc)

/-- What stands apart does not turn a colon into the mark for a default. -/
theorem Apart.not_equals {rest : List Char} (h : Apart rest) : ∀ c ∈ rest.head?, c ≠ '=' := by
  have hmarks : ∀ c ∈ [' ', ',', '(', ')', ':'], c ≠ '=' :=
    Text.forall_mem_of_all (by decide)
  exact fun c hc => hmarks c (h c hc)

/-! ## Lexemes -/

/-- A word is a character that starts a name and characters that go on with it. -/
theorem next?_word {c : Char} {cs rest : List Char} (hc : isNameStart c)
    (hcs : ∀ d ∈ cs, isNamePart d) (hrest : ∀ d ∈ rest.head?, isNamePart d = false)
    (offset : Nat) :
    ∃ after, next? c (cs ++ rest) offset =
      .ok (wordLexeme (String.ofList (c :: cs)), ⟨rest, after⟩) := by
  refine ⟨offset + Text.width (c :: cs), ?_⟩
  simp only [next?, hc, ↓reduceIte, Text.takeWhile_run hcs hrest, Text.dropWhile_run hcs hrest]
  rfl

/-- What starts no word is read as a numeral if it is one. -/
theorem next?_number {c : Char} {cs rest : List Char} (h : Text.Numeral.isNumeral (c :: cs))
    (hrest : Text.Numeral.Ends rest) (offset : Nat) :
    ∃ after, next? c (cs ++ rest) offset =
      .ok (.number (String.ofList (c :: cs)), ⟨rest, after⟩) := by
  have hname : isNameStart c = false := by
    rw [Bool.eq_false_iff]
    intro hc
    obtain ⟨hminus, hdigit⟩ := Grammar.not_numeral_of_isNameStart hc
    rcases Text.Numeral.head_of_isNumeral h with h | h
    · exact hminus h
    · rw [h] at hdigit
      cases hdigit
  have htake : Text.Numeral.take? (c :: (cs ++ rest)) = some (c :: cs, rest) :=
    Text.Numeral.take?_append h hrest
  refine ⟨offset + Text.width (c :: cs), ?_⟩
  simp only [next?, hname, htake]
  rfl

/-- A character is written with a backslash before what stands for it, or as it is. -/
theorem escape_cases (c : Char) :
    (∃ d, Written.escape c = ['\\', d] ∧ escaped? d = some c ∧ d ∈ ['"', '\\', 'n', 'r', 't']) ∨
      Written.escape c = [c] ∧ c ∉ ['"', '\\', '\n', '\r'] := by
  unfold Written.escape
  split
  case h_6 hquote hslash hfeed hreturn _ =>
    exact .inr ⟨rfl, by simpa using ⟨hquote, hslash, hfeed, hreturn⟩⟩
  all_goals exact .inl ⟨_, rfl, rfl, by decide⟩

/-- In a quoted text, line ends are escaped. -/
theorem isInline_of_mem_escape (c : Char) : ∀ d ∈ Written.escape c, Text.IsInline d := by
  rcases escape_cases c with ⟨d, hescape, -, hd⟩ | ⟨hescape, hc⟩
  · rw [hescape]
    have hinline : Text.IsInline d := Text.forall_mem_of_all (by decide) d hd
    simpa using ⟨by decide, hinline⟩
  · simp only [List.mem_cons, List.not_mem_nil, or_false, not_or] at hc
    simpa [hescape, Text.IsInline] using hc.2.2

/-- The characters that a string is written with stand for it. -/
theorem unescapes_written (value : List Char) : Unescapes (value.flatMap Written.escape) value := by
  induction value with
  | nil => exact .nil
  | cons c cs ih =>
      rw [List.flatMap_cons]
      rcases escape_cases c with ⟨d, hescape, hd, -⟩ | ⟨hescape, hc⟩
      · rw [hescape]
        exact .escape (mem_escapes hd) ih
      · simp only [List.mem_cons, List.not_mem_nil, or_false, not_or] at hc
        rw [hescape]
        exact .plain hc.1 hc.2.1 ih

/-- A quote starts a string, which is read up to its closing quote. -/
theorem next?_string {raw value : List Char} (h : Unescapes raw value) (rest : List Char)
    (offset : Nat) : ∃ after, next? '"' (raw ++ '"' :: rest) offset =
      .ok (.string (String.ofList value), ⟨rest, after⟩) := by
  obtain ⟨after, hread⟩ := readString_of_unescapes h (offset + 1) rest
  refine ⟨after, ?_⟩
  simp only [next?, (by decide : isNameStart '"' = false),
    Text.Numeral.take?_of_head (by decide : '"' ≠ '-') (by decide), hread]
  rfl

/-- A colon before another character is no part of a longer mark. -/
theorem takeMark?_colon {rest : List Char} (h : ∀ d ∈ rest.head?, d ≠ '=') :
    takeMark? (':' :: rest) = some (.colon, rest) := by
  unfold takeMark?
  split
  case h_1 heq =>
    cases heq
    exact absurd rfl (h '=' rfl)
  case h_2 heq =>
    cases heq
    rfl
  all_goals simp_all

/-- Punctuation is taken off the front. Only the colon may go on with what follows it. -/
theorem takeMark?_text {m : Mark} (hm : m ∉ Mark.keywords) :
    ∃ c cs, m.text.toList = c :: cs ∧ c ∈ [':', ',', '(', ')', '@', '='] ∧
      (∀ d ∈ c :: cs, Text.IsInline d) ∧
      ∀ rest, (m = .colon → ∀ d ∈ rest.head?, d ≠ '=') →
        takeMark? (c :: (cs ++ rest)) = some (m, rest) := by
  cases m with
  | colon =>
      exact ⟨_, _, rfl, by decide, Text.forall_mem_of_all (by decide),
        fun _ hrest => takeMark?_colon (hrest rfl)⟩
  | comma | leftParen | rightParen | atSign | assign | equals =>
      exact ⟨_, _, rfl, by decide, Text.forall_mem_of_all (by decide), fun _ _ => rfl⟩
  | objectWord | asWord | trueWord | falseWord => exact absurd (by decide) hm

/-- Punctuation is read as its mark. -/
theorem next?_mark {c : Char} {cs rest : List Char} {m : Mark}
    (hc : c ∈ [':', ',', '(', ')', '@', '=']) (h : takeMark? (c :: cs) = some (m, rest))
    (offset : Nat) : ∃ after, next? c cs offset = .ok (.mark m, ⟨rest, after⟩) := by
  have hmarks : ∀ c ∈ [':', ',', '(', ')', '@', '='],
      isNameStart c = false ∧ c ≠ '-' ∧ c.isDigit = false ∧ c ≠ '"' :=
    Text.forall_mem_of_all (by decide)
  obtain ⟨hname, hminus, hdigit, hquote⟩ := hmarks c hc
  refine ⟨offset + Text.width m.text.toList, ?_⟩
  simp only [next?, hname, Text.Numeral.take?_of_head hminus hdigit, hquote, h]
  rfl

end Lexing

/-! ## Texts on a line -/

namespace Scan

open Lexing (Apart apart_nil)
open Text (IsVisible IsInline)

variable {line : Int} {depth offset : Nat}

/-- A space is skipped. -/
theorem content_space (rest : List Char) :
    content line depth ⟨' ' :: rest, offset⟩ = content line depth ⟨rest, offset + 1⟩ := by
  rw [content]
  rfl

/-- A lexeme is met before those that come after it. -/
theorem content_next {c : Char} {rest : List Char} {lexeme : Lexeme} {after : Text.Cursor}
    (hc : IsVisible c) (h : Lexing.next? c rest offset = .ok (lexeme, after)) :
    content line depth ⟨c :: rest, offset⟩ =
      (content line (lexeme.depthAfter depth) after).after [⟨⟨line, offset + 1⟩, lexeme⟩] := by
  rw [content]
  simp only [hc.isGap, hc.2, Bool.false_eq_true, ↓reduceIte]
  split
  · next hmet =>
      rw [h] at hmet
      cases hmet
      rfl
  · next hmet =>
      rw [h] at hmet
      cases hmet

/-- The number of parentheses open after terminals. -/
def openAfter (depth : Nat) (ts : List Terminal) : Nat :=
  (ts.map Terminal.kind).foldl Kind.depthAfter depth

/-- Without terminals, no parenthesis is opened or closed. -/
@[simp]
theorem openAfter_nil (depth : Nat) : openAfter depth [] = depth :=
  rfl

/-- The first terminal opens or closes a parenthesis before the others do. -/
@[simp]
theorem openAfter_cons (depth : Nat) (t : Terminal) (ts : List Terminal) :
    openAfter depth (t :: ts) = openAfter (Kind.depthAfter depth t.kind) ts :=
  rfl

/-- Parentheses are opened and closed from the left to the right. -/
@[simp]
theorem openAfter_append (depth : Nat) (ts us : List Terminal) :
    openAfter depth (ts ++ us) = openAfter (openAfter depth ts) us := by
  simp [openAfter]

/-- A text on a line is read as lexemes with the given terminals if what follows stands apart. -/
structure Spells (text : List Char) (ts : List Terminal) : Prop where
  inline : ∀ c ∈ text, IsInline c
  reads : ∀ line depth offset rest, Apart rest → ∃ met after, met.map (·.value.terminal) = ts ∧
    content line depth ⟨text ++ rest, offset⟩ =
      (content line (openAfter depth ts) ⟨rest, after⟩).after met

/-- Nothing is read from an empty text. -/
theorem spells_nil : Spells [] [] :=
  ⟨fun _ h => absurd h List.not_mem_nil, fun _ _ offset _ _ => ⟨[], offset, rfl, rfl⟩⟩

namespace Spells

variable {text more : List Char} {ts us : List Terminal}

/-- A space can be put before a text. -/
theorem space (h : Spells text ts) : Spells (' ' :: text) ts := by
  refine ⟨List.forall_mem_cons.2 ⟨by decide, h.inline⟩, fun line depth offset rest hrest => ?_⟩
  obtain ⟨met, after, hmet, hcontent⟩ := h.reads line depth (offset + 1) rest hrest
  exact ⟨met, after, hmet, (content_space _).trans hcontent⟩

/-- A lexeme may be put before a text if it is read there. -/
theorem lexeme {c : Char} {cs : List Char} (lexeme : Lexeme) (hc : IsVisible c)
    (hinline : ∀ d ∈ c :: cs, IsInline d)
    (hnext : ∀ rest offset, Apart rest → ∃ after,
      Lexing.next? c (cs ++ (text ++ rest)) offset = .ok (lexeme, ⟨text ++ rest, after⟩))
    (h : Spells text ts) : Spells (c :: cs ++ text) (lexeme.terminal :: ts) := by
  refine ⟨List.forall_mem_append.2 ⟨hinline, h.inline⟩, fun line depth offset rest hrest => ?_⟩
  obtain ⟨middle, hmiddle⟩ := hnext rest offset hrest
  obtain ⟨met, after, hmet, hcontent⟩ :=
    h.reads line (lexeme.depthAfter depth) middle rest hrest
  refine ⟨⟨⟨line, offset + 1⟩, lexeme⟩ :: met, after, by simp [hmet], ?_⟩
  rw [List.cons_append, List.cons_append, List.append_assoc, content_next hc hmiddle, hcontent,
    Reading.after_after, openAfter_cons, lexeme.depthAfter_terminal]
  rfl

/-- Two texts may be put together if the second stands apart. -/
theorem append (h : Spells text ts) (hmore : Spells more us) (hapart : Apart more) :
    Spells (text ++ more) (ts ++ us) := by
  refine ⟨List.forall_mem_append.2 ⟨h.inline, hmore.inline⟩, fun line depth offset rest hrest => ?_⟩
  obtain ⟨met, middle, hmet, hcontent⟩ := h.reads line depth offset _ (hapart.append hrest)
  obtain ⟨later, after, hlater, hcontent'⟩ :=
    hmore.reads line (openAfter depth ts) middle rest hrest
  refine ⟨met ++ later, after, by simp [hmet, hlater], ?_⟩
  rw [List.append_assoc, hcontent, hcontent', Reading.after_after, openAfter_append]

/-- A word can be put before a text that stands apart from it. -/
theorem word {word : String} (lexeme : Lexeme)
    (hword : ∃ c cs, word.toList = c :: cs ∧ Lexing.isNameStart c ∧ ∀ d ∈ cs, Lexing.isNamePart d)
    (hlexeme : Lexing.wordLexeme word = lexeme) (hapart : Apart text) (h : Spells text ts) :
    Spells (word.toList ++ text) (lexeme.terminal :: ts) := by
  obtain ⟨c, cs, hlist, hc, hcs⟩ := hword
  have hplain : ∀ d ∈ c :: cs, Text.IsPlain d :=
    List.forall_mem_cons.2 ⟨Text.isPlain_of_isNamePart (Grammar.isNamePart_of_isNameStart hc),
      fun d hd => Text.isPlain_of_isNamePart (hcs d hd)⟩
  rw [hlist]
  refine h.lexeme lexeme (hplain c (by simp)).isVisible (fun d hd => (hplain d hd).isInline)
    fun rest offset hrest => ?_
  have hread := Lexing.next?_word hc hcs (hapart.append hrest).not_namePart offset
  rw [← hlist, String.ofList_toList, hlexeme] at hread
  exact hread

/-- A name can be put before a text that stands apart from it. -/
theorem name {name : String} (hname : (Terminal.name name).Legible) (hapart : Apart text)
    (h : Spells text ts) : Spells (name.toList ++ text) (.name name :: ts) := by
  obtain ⟨c, cs, hlist, hc, hcs, hword⟩ := isIdentifier_iff.1 hname
  exact h.word (.name name) ⟨c, cs, hlist, hc, hcs⟩ (by rw [Lexing.wordLexeme, hword]) hapart

/-- A keyword can be put before a text that stands apart from it. -/
theorem keyword {m : Mark} (hm : m ∈ Mark.keywords) (hapart : Apart text) (h : Spells text ts) :
    Spells (m.text.toList ++ text) (.mark m :: ts) := by
  have hparts : ∀ {cs : List Char}, (cs.all fun d => decide (Lexing.isNamePart d)) →
      ∀ d ∈ cs, Lexing.isNamePart d := Text.forall_mem_of_all
  simp only [Mark.keywords, List.mem_cons, List.not_mem_nil, or_false] at hm
  have hword : ∃ c cs, m.text.toList = c :: cs ∧ Lexing.isNameStart c ∧
      ∀ d ∈ cs, Lexing.isNamePart d := by
    rcases hm with rfl | rfl | rfl | rfl <;> exact ⟨_, _, rfl, by decide, hparts (by decide)⟩
  have hlexeme : Lexing.wordLexeme m.text = .mark m := by
    rcases hm with rfl | rfl | rfl | rfl <;> rfl
  exact h.word (.mark m) hword hlexeme hapart

/-- A number can be put before a text that stands apart from it. -/
theorem number {number : String} (hnumber : (Terminal.number number).Legible)
    (hapart : Apart text) (h : Spells text ts) :
    Spells (number.toList ++ text) (.number number :: ts) := by
  obtain ⟨c, cs, hlist, -⟩ := Text.Numeral.exists_cons_of_isNumeral hnumber
  have hplain := Text.isPlain_of_mem_numeral hnumber
  rw [Terminal.Legible, hlist] at hnumber
  rw [hlist] at hplain ⊢
  refine h.lexeme (.number number) (hplain c (by simp)).isVisible
    (fun d hd => (hplain d hd).isInline) fun rest offset hrest => ?_
  have hread := Lexing.next?_number hnumber (hapart.append hrest).ends offset
  rw [← hlist, String.ofList_toList] at hread
  exact hread

/-- A quoted text can be put before any text. -/
theorem string (value : String) (h : Spells text ts) :
    Spells (Written.quote value.toList ++ text) (.string value :: ts) := by
  refine h.lexeme (.string value) (by decide) ?_ fun rest offset _ => ?_
  · -- Line ends stand escaped between the quotes.
    have hquote : ∀ c ∈ ['"'], IsInline c := Text.forall_mem_of_all (by decide)
    refine List.forall_mem_cons.2 ⟨by decide, List.forall_mem_append.2 ⟨?_, hquote⟩⟩
    intro c hc
    obtain ⟨d, -, hd⟩ := List.mem_flatMap.1 hc
    exact Lexing.isInline_of_mem_escape d c hd
  · have hread := Lexing.next?_string (Lexing.unescapes_written value.toList) (text ++ rest) offset
    rw [String.ofList_toList] at hread
    simpa using hread

/-- A mark can be put before a text, which has to stand apart only from a colon. -/
theorem mark {m : Mark} (hm : m ∉ Mark.keywords) (hapart : m = .colon → Apart text)
    (h : Spells text ts) : Spells (m.text.toList ++ text) (.mark m :: ts) := by
  obtain ⟨c, cs, hlist, hc, hinline, htake⟩ := Lexing.takeMark?_text hm
  have hmarks : ∀ c ∈ [':', ',', '(', ')', '@', '='], IsVisible c :=
    Text.forall_mem_of_all (by decide)
  rw [hlist]
  exact h.lexeme (.mark m) (hmarks c hc) hinline fun rest offset hrest =>
    Lexing.next?_mark hc (htake _ fun heq => ((hapart heq).append hrest).not_equals) offset

end Spells

end Scan

end EoJava
