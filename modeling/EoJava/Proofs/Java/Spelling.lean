import EoJava.Java.Literal
import EoJava.Proofs.Grammar.Legible
import EoJava.Proofs.Java.Lexical

/-!
# Spelling lexemes

`Spells text lexemes` says that a text has some lexemes wherever it stands, if what follows it
stands apart, and `Leads` says the same of a text that anything may follow. Texts are put together
from the left, as they are written. A quoted text is one lexeme, and its value is the text
(`spells_stringLiteral`).
-/

namespace EoJava.Java

/-! ## Translated texts -/

/-- A text becomes `plain` when its Unicode escapes are replaced, whatever follows it. -/
def Translates (text plain : List Char) : Prop :=
  ∀ more, translate (text ++ more) = (translate more).map (plain ++ ·)

/-- A character other than a backslash stands for itself. -/
theorem translate_cons {c : Char} (h : c ≠ '\\') (rest : List Char) :
    translate (c :: rest) = (translate rest).map (c :: ·) := by
  rw [translate.eq_def]
  split <;> simp_all

namespace Translates

/-- No text stands for no text. -/
theorem nil : Translates [] [] := by
  intro more
  simp

/-- Texts whose escapes are replaced one after the other are replaced together. -/
theorem append {text plain more after : List Char} (h : Translates text plain)
    (hmore : Translates more after) : Translates (text ++ more) (plain ++ after) := by
  intro rest
  rw [List.append_assoc, h, hmore, Option.map_map]
  simp [Function.comp_def]

/-- A text without backslashes stands for itself. -/
theorem self {text : List Char} (h : ∀ c ∈ text, c ≠ '\\') : Translates text text := by
  induction text with
  | nil => exact nil
  | cons c cs ih =>
      obtain ⟨hc, hcs⟩ := List.forall_mem_cons.1 h
      intro more
      rw [List.cons_append, translate_cons hc, ih hcs, Option.map_map]
      rfl

/-- The first character stands for itself if it is no backslash. -/
theorem exists_cons {c : Char} {cs plain : List Char} (h : Translates (c :: cs) plain)
    (hc : c ≠ '\\') : ∃ after, plain = c :: after := by
  have hplain := h []
  rw [List.append_nil, translate_cons hc, translate, Option.map_some, List.append_nil] at hplain
  obtain ⟨after, -, heq⟩ := Option.map_eq_some_iff.1 hplain
  exact ⟨after, heq.symm⟩

/-- Nothing stands for nothing. -/
theorem eq_nil {plain : List Char} (h : Translates [] plain) : plain = [] := by
  have hplain := h []
  rw [List.append_nil, translate, Option.map_some, Option.some_inj, List.append_nil] at hplain
  exact hplain.symm

end Translates

/-- What may follow a word, a number or a string. -/
def Apart (rest : List Char) : Prop :=
  ∀ c ∈ rest.head?, isNumberPart c = false ∧ c ∉ ['"', '\\']

instance (rest : List Char) : Decidable (Apart rest) :=
  decidable_of_iff (rest.head?.all fun c => decide (isNumberPart c = false ∧ c ∉ ['"', '\\']))
    (by simp [Apart, Option.all_eq_true])

/-- Nothing follows at the end of a text, and that stands apart. -/
theorem apart_nil : Apart [] :=
  fun _ h => by cases h

/-- What starts with a character of no number stands apart, unless that is a quote or a backslash.
-/
theorem apart_cons {c : Char} {rest : List Char} (h : isNumberPart c = false)
    (hquote : c ∉ ['"', '\\']) : Apart (c :: rest) := by
  rintro d ⟨⟩
  exact ⟨h, hquote⟩

namespace Apart

/-- What stands apart does not continue a number. -/
theorem not_numberPart {rest : List Char} (h : Apart rest) :
    ∀ c ∈ rest.head?, isNumberPart c = false :=
  fun c hc => (h c hc).1

/-- What stands apart does not continue a word. -/
theorem not_wordPart {rest : List Char} (h : Apart rest) :
    ∀ c ∈ rest.head?, isWordPart c = false :=
  fun c hc => (Bool.or_eq_false_iff.1 (h.not_numberPart c hc)).1

/-- What stands apart does so after its escapes are replaced. -/
theorem translates {text plain rest : List Char} (h : Apart text) (htext : Translates text plain)
    (hrest : text = [] → Apart rest) : Apart (plain ++ rest) := by
  cases text with
  | nil =>
      rw [htext.eq_nil]
      exact hrest rfl
  | cons c cs =>
      have hc := h c rfl
      obtain ⟨after, rfl⟩ := htext.exists_cons fun heq => hc.2 (by simp [heq])
      exact apart_cons hc.1 hc.2

end Apart

/-! ## Spelled texts -/

/-- A text has some lexemes wherever it stands, if what follows it is as required. -/
def Cuts (Next : List Char → Prop) (text : String) (lexemes : List Lexeme) : Prop :=
  ∃ plain, Translates text.toList plain ∧
    ∀ rest, Next rest → lex (plain ++ rest) = (lex rest).map (lexemes ++ ·)

/-- A text has some lexemes if what follows it stands apart. -/
def Spells : String → List Lexeme → Prop :=
  Cuts Apart

/-- A text has some lexemes whatever follows it. -/
def Leads : String → List Lexeme → Prop :=
  Cuts fun _ => True

variable {text more : String} {lexemes others : List Lexeme}

/-- A text that may end after its lexemes has them by itself. -/
theorem Cuts.lexemes?_eq {Next : List Char → Prop} (h : Cuts Next text lexemes) (hend : Next []) :
    lexemes? text.toList = some lexemes := by
  obtain ⟨plain, htext, hlex⟩ := h
  have hplain := htext []
  rw [List.append_nil, translate, Option.map_some, List.append_nil] at hplain
  have hall := hlex [] hend
  rw [List.append_nil, lex, Option.map_some, List.append_nil] at hall
  rw [lexemes?, hplain]
  exact hall

/-- At the end of a text there is nothing to stand apart, so a spelled text has its lexemes. -/
theorem Spells.lexemes?_eq (h : Spells text lexemes) : lexemes? text.toList = some lexemes :=
  Cuts.lexemes?_eq h apart_nil

/-- A text and one that may follow it have the lexemes of both. -/
theorem Cuts.append {Next Later : List Char → Prop} (h : Cuts Next text lexemes)
    (hmore : Cuts Later more others)
    (hnext : ∀ plain rest, Translates more.toList plain → Later rest → Next (plain ++ rest)) :
    Cuts Later (text ++ more) (lexemes ++ others) := by
  obtain ⟨plain, htext, hlex⟩ := h
  obtain ⟨after, htail, hlater⟩ := hmore
  refine ⟨plain ++ after, ?_, fun rest hrest => ?_⟩
  · rw [String.toList_append]
    exact htext.append htail
  · rw [List.append_assoc, hlex _ (hnext after rest htail hrest), hlater rest hrest,
      Option.map_map]
    simp [Function.comp_def]

/-- The empty text has no lexemes. -/
theorem spells_empty : Spells "" [] :=
  ⟨[], .nil, fun rest _ => by simp⟩

namespace Leads

/-- What may be followed by anything may be followed by what stands apart. -/
theorem spells (h : Leads text lexemes) : Spells text lexemes := by
  obtain ⟨plain, htext, hlex⟩ := h
  exact ⟨plain, htext, fun rest _ => hlex rest trivial⟩

/-- Texts that may be followed by anything have the lexemes of both. -/
theorem append (h : Leads text lexemes) (hmore : Leads more others) :
    Leads (text ++ more) (lexemes ++ others) :=
  Cuts.append h hmore fun _ _ _ _ => trivial

/-- A text that may be followed by anything can be put before a spelled one. -/
theorem append_spells (h : Leads text lexemes) (hmore : Spells more others) :
    Spells (text ++ more) (lexemes ++ others) :=
  Cuts.append h hmore fun _ _ _ _ => trivial

/-- A text that may be followed by anything has its lexemes when it stands alone. -/
theorem lexemes?_eq (h : Leads text lexemes) : lexemes? text.toList = some lexemes :=
  Cuts.lexemes?_eq h trivial

end Leads

/-- A text that anything may follow, and that may follow anything. -/
structure Separates (text : String) (lexemes : List Lexeme) : Prop where
  leads : Leads text lexemes
  apart : Apart text.toList
  nonempty : text.toList ≠ []

namespace Spells

/-- A spelled text has the lexemes of both with one that stands apart from it. -/
theorem append (h : Spells text lexemes) (hmore : Spells more others) (hapart : Apart more.toList) :
    Spells (text ++ more) (lexemes ++ others) :=
  Cuts.append h hmore fun _ _ htail hrest => hapart.translates htail fun _ => hrest

/-- What separates ends what stands before it. -/
theorem append_separates (h : Spells text lexemes) (hmore : Separates more others) :
    Leads (text ++ more) (lexemes ++ others) :=
  Cuts.append h hmore.leads fun _ _ htail _ =>
    hmore.apart.translates htail fun hnil => absurd hnil hmore.nonempty

end Spells

/-! ## Words and punctuation -/

/-- What is met is read before what comes after it. -/
theorem lex_cons {c : Char} {rest after : List Char} {lexeme : Lexeme} (hc : isSpace c = false)
    (h : next? c rest = some (lexeme, after)) :
    lex (c :: rest) = (lex after).map (lexeme :: ·) := by
  rw [lex]
  simp only [hc, Bool.false_eq_true, ↓reduceIte]
  split
  · next hnone =>
      rw [h] at hnone
      cases hnone
  · next hmet =>
      rw [h] at hmet
      cases hmet
      rfl

/-- Spaces are skipped. -/
theorem lex_space {c : Char} (hc : isSpace c) (rest : List Char) : lex (c :: rest) = lex rest := by
  rw [lex]
  simp only [hc, ↓reduceIte]

/-- No word starts with a space. -/
theorem not_space_of_isWordStart {c : Char} (h : isWordStart c) : isSpace c = false := by
  have hspaces : ∀ c ∈ [' ', '\t', '\x0c', '\n', '\r'], isWordStart c = false :=
    Text.forall_mem_of_all (by decide)
  rw [Bool.eq_false_iff]
  intro hspace
  rw [hspaces c (List.contains_iff_mem.1 hspace)] at h
  cases h

/-- A word is read whole if what follows does not go on with it. -/
theorem lex_word {c : Char} {cs rest : List Char} (hc : isWordStart c)
    (hcs : ∀ d ∈ cs, isWordPart d)
    (hrest : ∀ d ∈ rest.head?, isWordPart d = false) :
    lex (c :: (cs ++ rest)) = (lex rest).map (wordLexeme (String.ofList (c :: cs)) :: ·) := by
  refine lex_cons (not_space_of_isWordStart hc) ?_
  simp only [next?, hc, ↓reduceIte, Text.takeWhile_run hcs hrest, Text.dropWhile_run hcs hrest]

/-- Punctuation that nothing goes on with. -/
def enders : List Char :=
  ['\x7b', '\x7d', '(', ')', ',', ';']

/-- A symbol is read by itself, unless it is the start of a longer one. -/
theorem next?_symbol {c : Char} (hc : c ∈ symbols) (rest : List Char) :
    next? c rest = if isLonger c rest then none else some (.symbol c, rest) := by
  have hsymbols : ∀ c ∈ symbols, isWordStart c = false ∧ c.isDigit = false ∧ c ≠ '"' :=
    Text.forall_mem_of_all (by decide)
  obtain ⟨hword, hdigit, hquote⟩ := hsymbols c hc
  cases hlonger : isLonger c rest <;> simp [next?, hword, hdigit, hquote, hlonger, hc]

/-- A symbol is the first lexeme of a text, if it is not the start of a longer one. -/
theorem lex_symbol {c : Char} {rest : List Char} (hc : c ∈ symbols)
    (hrest : isLonger c rest = false) : lex (c :: rest) = (lex rest).map (.symbol c :: ·) := by
  have hsymbols : ∀ c ∈ symbols, isSpace c = false := Text.forall_mem_of_all (by decide)
  refine lex_cons (hsymbols c hc) ?_
  simp [next?_symbol hc, hrest]

/-- Brackets, commas and semicolons start no longer symbol. -/
theorem isLonger_ender {c : Char} (hc : c ∈ enders) (rest : List Char) :
    isLonger c rest = false := by
  have henders : ∀ c ∈ enders, c ≠ '=' ∧ c ≠ '-' ∧ c ≠ '.' :=
    Text.forall_mem_of_all (by decide)
  obtain ⟨hequals, hminus, hpoint⟩ := henders c hc
  cases rest <;> simp [isLonger, hequals, hminus, hpoint]

/-- What can start a word can be anywhere in it. -/
theorem isWordPart_of_isWordStart {c : Char} (h : isWordStart c) : isWordPart c := by
  simp only [isWordStart, isWordPart, Char.isAlphanum, Bool.or_eq_true] at h ⊢
  exact h.imp_left (Or.imp_left .inl)

/-- Words, spaces and punctuation, the last of which nothing goes on with. -/
structure IsClosed (text : List Char) : Prop where
  plain : ∀ c ∈ text, isWordStart c ∨ isSpace c ∨ c ∈ symbols
  ends : ∀ c ∈ text.getLast?, isSpace c ∨ c ∈ enders

instance (text : List Char) : Decidable (IsClosed text) :=
  decidable_of_iff
    ((text.all fun c => decide (isWordStart c ∨ isSpace c ∨ c ∈ symbols)) ∧
      text.getLast?.all fun c => decide (isSpace c ∨ c ∈ enders))
    ⟨fun h => ⟨by simpa using h.1, by simpa [Option.all_eq_true] using h.2⟩,
      fun h => ⟨by simpa using h.plain, by simpa [Option.all_eq_true] using h.ends⟩⟩

namespace IsClosed

variable {c : Char} {cs : List Char}

/-- The end of a closed text is closed. -/
theorem of_suffix {text after : List Char} (h : IsClosed text) (hafter : after <:+ text) :
    IsClosed after := by
  refine ⟨fun c hc => h.plain c (hafter.subset hc), fun c hc => h.ends c ?_⟩
  obtain ⟨before, rfl⟩ := hafter
  rw [List.getLast?_append, Option.mem_def.1 hc]
  rfl

/-- The last character of a closed text is no part of a word. -/
theorem dropWhile_ne_nil (h : IsClosed (c :: cs)) (hc : isWordStart c) :
    cs.dropWhile isWordPart ≠ [] := by
  intro hall
  have hparts : ∀ d ∈ c :: cs, isWordPart d :=
    List.forall_mem_cons.2 ⟨isWordPart_of_isWordStart hc, List.dropWhile_eq_nil_iff.1 hall⟩
  have hends : ∀ d ∈ [' ', '\t', '\x0c', '\n', '\r'] ++ enders, isWordPart d = false :=
    Text.forall_mem_of_all (by decide)
  have hlast := hparts _ (List.getLast_mem (List.cons_ne_nil c cs))
  rw [hends] at hlast
  · cases hlast
  · refine List.mem_append.2 ((h.ends _ ?_).imp_left fun hspace => ?_)
    · exact List.getLast?_eq_some_getLast (List.cons_ne_nil c cs)
    · exact List.contains_iff_mem.1 hspace

/-- Punctuation in a closed text is longer only by what follows it there. -/
theorem isLonger_append (h : IsClosed (c :: cs)) (hc : c ∈ symbols) (rest : List Char) :
    isLonger c (cs ++ rest) = isLonger c cs := by
  cases cs with
  | nil =>
      have hsymbols : ∀ c ∈ symbols, isSpace c = false := Text.forall_mem_of_all (by decide)
      rcases h.ends c rfl with hspace | hender
      · rw [hsymbols c hc] at hspace
        cases hspace
      · rw [isLonger_ender hender, isLonger_ender hender]
  | cons d ds => rfl

/-- What is met in a closed text is met there whatever follows it. -/
theorem next?_append {lexeme : Lexeme} {after : List Char} (h : IsClosed (c :: cs))
    (hspace : isSpace c = false) (hmet : next? c cs = some (lexeme, after)) (rest : List Char) :
    next? c (cs ++ rest) = some (lexeme, after ++ rest) ∧ after <:+ cs := by
  rcases h.plain c (List.mem_cons_self ..) with hword | hspace' | hsymbol
  · obtain ⟨d, ds, hleft⟩ := List.exists_cons_of_ne_nil (h.dropWhile_ne_nil hword)
    have hsplit : cs ++ rest = cs.takeWhile isWordPart ++ (cs.dropWhile isWordPart ++ rest) := by
      rw [← List.append_assoc, List.takeWhile_append_dropWhile]
    have hrun : ∀ d ∈ cs.takeWhile isWordPart, isWordPart d := fun d hd => List.mem_takeWhile_imp hd
    have hnext : ∀ d ∈ (cs.dropWhile isWordPart ++ rest).head?, isWordPart d = false := by
      rw [hleft]
      rintro e ⟨⟩
      simpa [hleft] using List.head?_dropWhile_not isWordPart cs
    simp only [next?, hword, ↓reduceIte, Option.some_inj, Prod.mk.injEq] at hmet
    obtain ⟨rfl, rfl⟩ := hmet
    refine ⟨?_, List.dropWhile_suffix _⟩
    simp only [next?, hword, ↓reduceIte]
    rw [hsplit, Text.takeWhile_run hrun hnext, Text.dropWhile_run hrun hnext]
  · rw [hspace'] at hspace
    cases hspace
  · rw [next?_symbol hsymbol, h.isLonger_append hsymbol]
    rw [next?_symbol hsymbol] at hmet
    split at hmet
    · cases hmet
    · next hlonger =>
        cases hmet
        exact ⟨if_neg hlonger, List.suffix_refl cs⟩

end IsClosed

/-- The lexemes of a closed text are those that it has by itself. -/
theorem lex_append_of_isClosed {text : List Char} (h : lex text = some lexemes)
    (hclosed : IsClosed text) (rest : List Char) :
    lex (text ++ rest) = (lex rest).map (lexemes ++ ·) := by
  fun_induction lex text generalizing lexemes with
  | case1 =>
      cases h
      simp
  | case2 c cs hspace ih =>
      rw [List.cons_append, lex_space hspace]
      exact ih h (hclosed.of_suffix (List.suffix_cons c cs))
  | case3 => cases h
  | case4 c cs hspace lexeme after hmet ih =>
      obtain ⟨later, hlater, rfl⟩ := Option.map_eq_some_iff.1 h
      obtain ⟨hnext, hsuffix⟩ := hclosed.next?_append (Bool.eq_false_iff.2 hspace) hmet rest
      have hlex := ih hlater (hclosed.of_suffix (hsuffix.trans (List.suffix_cons c cs)))
      rw [List.cons_append, lex_cons (Bool.eq_false_iff.2 hspace) hnext, hlex, Option.map_map]
      rfl

/-- The lexemes of a text that is read in no more than so many steps. Unlike `lex` it can be
evaluated by unfolding. -/
def lexWithin : Nat → List Char → Option (List Lexeme)
  | _, [] => some []
  | 0, _ :: _ => none
  | steps + 1, c :: rest =>
    if isSpace c then lexWithin steps rest
    else
      match next? c rest with
      | none => none
      | some (lexeme, after) => (lexWithin steps after).map (lexeme :: ·)

/-- What is read in a number of steps is what is read. -/
theorem lex_of_lexWithin {steps : Nat} {text : List Char}
    (h : lexWithin steps text = some lexemes) : lex text = some lexemes := by
  fun_induction lexWithin steps text generalizing lexemes with
  | case1 =>
      cases h
      simp [lex]
  | case2 => cases h
  | case3 steps c rest hspace ih =>
      rw [lex_space hspace]
      exact ih h
  | case4 => cases h
  | case5 steps c rest hspace lexeme after hmet ih =>
      obtain ⟨later, hlater, rfl⟩ := Option.map_eq_some_iff.1 h
      rw [lex_cons (Bool.eq_false_iff.2 hspace) hmet, ih hlater]
      rfl

/-- A closed text leads whatever follows it. -/
theorem leads_of_isClosed (h : lexWithin text.toList.length text.toList = some lexemes)
    (hclosed : IsClosed text.toList) : Leads text lexemes := by
  have hslash : isWordStart '\\' = false ∧ isSpace '\\' = false ∧ '\\' ∉ symbols := by decide
  refine ⟨text.toList, .self fun c hc heq => ?_,
    fun rest _ => lex_append_of_isClosed (lex_of_lexWithin h) hclosed rest⟩
  have hplain := hclosed.plain c hc
  simp [heq, hslash] at hplain

/-- A closed text that stands apart separates what is before and after it. -/
theorem separates_of_isClosed (h : lexWithin text.toList.length text.toList = some lexemes)
    (hclosed : IsClosed text.toList ∧ Apart text.toList ∧ text.toList ≠ []) :
    Separates text lexemes :=
  ⟨leads_of_isClosed h hclosed.1, hclosed.2.1, hclosed.2.2⟩

/-- A name as Java reads it: a letter or underscore, then letters, digits and underscores, and no
truth value. -/
def Nameable (name : String) : Prop :=
  ∃ c cs, name.toList = c :: cs ∧ Lexing.isNameStart c ∧ (∀ d ∈ cs, Lexing.isNamePart d) ∧
    name ≠ "true" ∧ name ≠ "false"

/-- What is an identifier of a source is a name as Java reads it. -/
theorem nameable_of_isIdentifier {name : String} (h : isIdentifier name) : Nameable name := by
  obtain ⟨c, cs, htext, hc, hcs, hword⟩ := Grammar.isIdentifier_iff.1 h
  refine ⟨c, cs, htext, hc, hcs, ?_, ?_⟩
  · rintro rfl
    cases hword
  · rintro rfl
    cases hword

/-- The word for the own object is read as a name. -/
theorem nameable_this : Nameable "this" :=
  nameable_of_isIdentifier (by decide)

/-- An identifier of a source starts like a word. -/
theorem isWordStart_of_isNameStart {c : Char} (h : Lexing.isNameStart c) : isWordStart c := by
  simp only [Lexing.isNameStart, isWordStart, Bool.or_eq_true] at h ⊢
  exact .inl h

/-- An identifier of a source goes on like a word. -/
theorem isWordPart_of_isNamePart {c : Char} (h : Lexing.isNamePart c) : isWordPart c := by
  simp only [Lexing.isNamePart, isWordPart, Bool.or_eq_true] at h ⊢
  exact .inl h

/-- A backslash is in no word. -/
theorem isWordPart_slash : isWordPart '\\' = false := by decide

/-- A name is read as a word if what follows does not go on with it. -/
theorem Nameable.lex_append {name : String} (h : Nameable name) {rest : List Char}
    (hrest : ∀ c ∈ rest.head?, isWordPart c = false) :
    lex (name.toList ++ rest) = (lex rest).map (.word name :: ·) := by
  obtain ⟨c, cs, hname, hc, hcs, htrue, hfalse⟩ := h
  have hword : String.ofList (c :: cs) = name := by rw [← hname, String.ofList_toList]
  rw [hname, List.cons_append, lex_word (isWordStart_of_isNameStart hc)
    (fun d hd => isWordPart_of_isNamePart (hcs d hd)) hrest, hword, wordLexeme, if_neg htrue,
    if_neg hfalse]

/-- There is no escape in a name. -/
theorem Nameable.translates {name : String} (h : Nameable name) :
    Translates name.toList name.toList := by
  obtain ⟨c, cs, hname, hc, hcs, -⟩ := h
  rw [hname]
  refine .self (List.forall_mem_cons.2 ⟨?_, fun d hd => ?_⟩)
  · rintro rfl
    cases isWordPart_slash.symm.trans (isWordPart_of_isWordStart (isWordStart_of_isNameStart hc))
  · rintro rfl
    cases isWordPart_slash.symm.trans (isWordPart_of_isNamePart (hcs _ hd))

/-- A name is one word. -/
theorem spells_name {name : String} (h : Nameable name) : Spells name [.word name] :=
  ⟨name.toList, h.translates, fun _ hrest => h.lex_append hrest.not_wordPart⟩

/-- A point before a name is no part of anything longer. -/
theorem Nameable.isLonger_point {name : String} (h : Nameable name) (rest : List Char) :
    isLonger '.' (name.toList ++ rest) = false := by
  obtain ⟨c, cs, hname, hc, -⟩ := h
  have hpoint : c ≠ '.' := by
    rintro rfl
    cases hc
  have hdigit : c.isDigit = false := (Grammar.not_numeral_of_isNameStart hc).2
  simp [hname, isLonger, hpoint, hdigit]

/-- A field of the object itself. -/
theorem spells_this {name : String} (h : Nameable name) :
    Spells ("this." ++ name) [.word "this", .symbol '.', .word name] := by
  have hpoint : Translates ['.'] ['.'] := .self (Text.forall_mem_of_all (by decide))
  have htext : ("this." ++ name).toList = "this".toList ++ (['.'] ++ name.toList) := by
    rw [String.toList_append]
    rfl
  refine ⟨"this".toList ++ (['.'] ++ name.toList), ?_, fun rest hrest => ?_⟩
  · rw [htext]
    exact nameable_this.translates.append (hpoint.append h.translates)
  rw [List.append_assoc, nameable_this.lex_append (by rintro c ⟨⟩; decide), List.append_assoc,
    List.singleton_append, lex_symbol (by decide) (h.isLonger_point rest),
    h.lex_append hrest.not_wordPart, Option.map_map, Option.map_map]
  rfl

/-! ## Numbers -/

/-- No word starts with a digit. -/
theorem not_isWordStart_of_isDigit {c : Char} (h : c.isDigit) : isWordStart c = false := by
  have hmarks : ∀ c ∈ ['_', '$'], c.isDigit = false := Text.forall_mem_of_all (by decide)
  rw [isWordStart, Grammar.isAlpha_of_isDigit h, Bool.false_or, Bool.or_eq_false_iff,
    beq_eq_false_iff_ne, beq_eq_false_iff_ne]
  constructor
  · rintro rfl
    cases h
  · rintro rfl
    cases h

/-- No digit is a space. -/
theorem not_isSpace_of_isDigit {c : Char} (h : c.isDigit) : isSpace c = false := by
  have hspaces : ∀ c ∈ [' ', '\t', '\x0c', '\n', '\r'], c.isDigit = false :=
    Text.forall_mem_of_all (by decide)
  rw [Bool.eq_false_iff]
  intro hspace
  rw [hspaces c (List.contains_iff_mem.1 hspace)] at h
  cases h

/-- A text that is read as one number: a digit, then digits, points and letters. -/
structure Countable (text : List Char) : Prop where
  digit : ∃ c cs, text = c :: cs ∧ c.isDigit
  parts : ∀ c ∈ text, isNumberPart c
  number : isNumber text

namespace Countable

variable {digits rest : List Char}

/-- A number is read whole if what follows stands apart. -/
theorem lex_append (h : Countable digits) (hrest : Apart rest) :
    lex (digits ++ rest) = (lex rest).map (.number (String.ofList digits) :: ·) := by
  obtain ⟨⟨c, cs, rfl, hc⟩, hparts, hnumber⟩ := h
  have hcs : ∀ d ∈ cs, isNumberPart d := fun d hd => hparts d (List.mem_cons_of_mem c hd)
  have hnext : next? c (cs ++ rest) = some (.number (String.ofList (c :: cs)), rest) := by
    simp only [next?, not_isWordStart_of_isDigit hc, hc,
      Text.takeWhile_run hcs hrest.not_numberPart, Text.dropWhile_run hcs hrest.not_numberPart,
      hnumber, ↓reduceIte]
    rfl
  exact lex_cons (not_isSpace_of_isDigit hc) hnext

/-- There is no escape in a number. -/
theorem translates (h : Countable digits) : Translates digits digits := by
  refine .self fun c hc heq => ?_
  have hpart := h.parts c hc
  rw [heq] at hpart
  exact absurd hpart (by decide)

/-- A minus sign before a number is no part of anything longer. -/
theorem isLonger_minus (h : Countable digits) : isLonger '-' (digits ++ rest) = false := by
  obtain ⟨⟨c, cs, rfl, hc⟩, -⟩ := h
  have hmarks : ∀ c ∈ ['-', '=', '>'], c.isDigit = false := Text.forall_mem_of_all (by decide)
  have hne : ∀ d ∈ ['-', '=', '>'], c ≠ d := by
    rintro d hd rfl
    rw [hmarks c hd] at hc
    cases hc
  simp [isLonger, hne]

end Countable

/-- Digits that are read as one number are one lexeme. -/
theorem spells_number {digits : List Char} (h : Countable digits) :
    Spells (String.ofList digits) [.number (String.ofList digits)] := by
  refine ⟨digits, ?_, fun _ hrest => h.lex_append hrest⟩
  rw [String.toList_ofList]
  exact h.translates

/-- A sign before a number is a lexeme of its own. -/
theorem spells_negative {digits : List Char} (h : Countable digits) :
    Spells (String.ofList ('-' :: digits)) [.symbol '-', .number (String.ofList digits)] := by
  refine ⟨'-' :: digits, ?_, fun rest hrest => ?_⟩
  · rw [String.toList_ofList]
    have hminus : Translates ['-'] ['-'] := .self (Text.forall_mem_of_all (by decide))
    exact hminus.append h.translates
  · rw [List.cons_append, lex_symbol (by decide) h.isLonger_minus, h.lex_append hrest,
      Option.map_map]
    rfl

/-! ## Strings -/

/-- The code of a control character stands for it. -/
theorem unicode?_control : ∀ n < 0x20, unicode? '0' '0' (Text.Quoted.hexDigit (n / 16))
    (Text.Quoted.hexDigit (n % 16)) = some (Char.ofNat n) := by
  decide

/-- A backslash and what follows it stand for themselves, unless they start a Unicode escape. -/
theorem translates_slash {c : Char} (h : c ≠ 'u') : Translates ['\\', c] ['\\', c] := by
  intro more
  rw [List.cons_append, List.cons_append, List.nil_append]
  by_cases hslash : c = '\\'
  · rw [hslash, translate]
    rfl
  · have hlone : translate ('\\' :: c :: more) = (translate (c :: more)).map ('\\' :: ·) := by
      rw [translate.eq_def]
      split
      case h_5 heq =>
        cases heq
        rfl
      all_goals simp_all
    rw [hlone, translate_cons hslash, Option.map_map]
    rfl

/-- An ordinary character of a string stands for itself. -/
theorem stringBody?_cons {c : Char} (h : c ∉ ['"', '\\', '\n', '\r']) (rest : List Char) :
    stringBody? (c :: rest) = (stringBody? rest).map fun (cs, after) => (c :: cs, after) := by
  simp only [List.mem_cons, List.not_mem_nil, or_false, not_or] at h
  rw [stringBody?]
  simp [h]

/-- An escape in a string stands for its character. -/
theorem stringBody?_escape {text after : List Char} {value : Char}
    (h : escape? text = some (value, after)) :
    stringBody? ('\\' :: text) =
      (stringBody? after).map fun (cs, after) => (value :: cs, after) := by
  rw [stringBody?]
  simp only [Char.reduceEq, decide_false, Bool.or_self, Bool.false_eq_true, ↓reduceIte]
  split
  · next hnone =>
      rw [h] at hnone
      cases hnone
  · next hfound =>
      rw [h] at hfound
      cases hfound
      rfl

/-- A character is quoted by a short escape, by its code, or as it is. -/
theorem escape_cases (c : Char) :
    (∃ d, Text.Quoted.escape c = ['\\', d] ∧ simpleEscape? d = some c) ∨
      (Text.Quoted.escape c = ['\\', 'u', '0', '0', Text.Quoted.hexDigit (c.toNat / 16),
        Text.Quoted.hexDigit (c.toNat % 16)] ∧ c.toNat < 0x20 ∧ c ∉ ['"', '\\', '\n', '\r']) ∨
      Text.Quoted.escape c = [c] ∧ c ∉ ['"', '\\', '\n', '\r'] := by
  simp only [Text.Quoted.escape, List.mem_cons, List.not_mem_nil, or_false, not_or]
  by_cases hquote : c = '"'
  · exact .inl ⟨'"', by simp [hquote], by simp [hquote, simpleEscape?]⟩
  by_cases hslash : c = '\\'
  · exact .inl ⟨'\\', by simp [hslash], by simp [hslash, simpleEscape?]⟩
  by_cases hback : c = '\x08'
  · exact .inl ⟨'b', by simp [hback], by simp [hback, simpleEscape?]⟩
  by_cases hpage : c = '\x0c'
  · exact .inl ⟨'f', by simp [hpage], by simp [hpage, simpleEscape?]⟩
  by_cases hfeed : c = '\n'
  · exact .inl ⟨'n', by simp [hfeed], by simp [hfeed, simpleEscape?]⟩
  by_cases hreturn : c = '\r'
  · exact .inl ⟨'r', by simp [hreturn], by simp [hreturn, simpleEscape?]⟩
  by_cases htab : c = '\t'
  · exact .inl ⟨'t', by simp [htab], by simp [htab, simpleEscape?]⟩
  simp only [hquote, hslash, hback, hpage, hfeed, hreturn, htab, ↓reduceIte, not_false_eq_true,
    and_self, and_true]
  by_cases hcontrol : c.toNat < 0x20
  · exact .inr (.inl ⟨if_pos hcontrol, hcontrol⟩)
  · exact .inr (.inr (if_neg hcontrol))

/-- Between quotes, a text is read as `value`. What it starts with closes no string. -/
structure Holds (text value plain : List Char) : Prop where
  translates : Translates text plain
  opens : ∀ c ∈ plain.head?, c ≠ '"'
  reads : ∀ rest, stringBody? (plain ++ rest) =
    (stringBody? rest).map fun (cs, after) => (value ++ cs, after)

/-- A quoted character is read as itself. -/
theorem exists_holds_escape (c : Char) :
    ∃ plain, plain ≠ [] ∧ Holds (Text.Quoted.escape c) [c] plain := by
  have hself : c ∉ ['"', '\\', '\n', '\r'] → ∀ d ∈ [c].head?, d ≠ '"' := by
    rintro hc d ⟨⟩ rfl
    exact hc (List.mem_cons_self ..)
  rcases escape_cases c with ⟨d, hescape, hd⟩ | ⟨hescape, hcontrol, hc⟩ | ⟨hescape, hc⟩
  · have hne : d ≠ 'u' := by
      rintro rfl
      cases hd
    refine ⟨['\\', d], List.cons_ne_nil _ _, ?_, by simp, fun rest => ?_⟩
    · rw [hescape]
      exact translates_slash hne
    · exact stringBody?_escape (by simp [escape?, hd])
  · refine ⟨[c], List.cons_ne_nil _ _, fun more => ?_, hself hc, stringBody?_cons hc⟩
    have hcode := unicode?_control c.toNat hcontrol
    rw [Char.ofNat_toNat] at hcode
    rw [hescape]
    simp [translate, hcode]
  · refine ⟨[c], List.cons_ne_nil _ _, ?_, hself hc, stringBody?_cons hc⟩
    rw [hescape]
    refine .self fun d hd heq => hc ?_
    rw [← List.mem_singleton.1 hd, heq]
    decide

/-- The characters of a quoted text are read as the text. -/
theorem exists_holds (value : List Char) :
    ∃ plain, Holds (value.flatMap Text.Quoted.escape) value plain := by
  induction value with
  | nil => exact ⟨[], .nil, by simp, fun rest => by simp⟩
  | cons c cs ih =>
      obtain ⟨plain, hplain⟩ := ih
      obtain ⟨first, hne, hfirst⟩ := exists_holds_escape c
      refine ⟨first ++ plain, hfirst.translates.append hplain.translates, ?_, fun rest => ?_⟩
      · obtain ⟨d, ds, rfl⟩ := List.exists_cons_of_ne_nil hne
        exact hfirst.opens
      · rw [List.append_assoc, hfirst.reads, hplain.reads, Option.map_map]
        rfl

/-- A text is quoted as one string, and its value is the text. -/
theorem spells_stringLiteral (value : String) : Spells (stringLiteral value) [.string value] := by
  obtain ⟨plain, hplain⟩ := exists_holds value.toList
  have hquote : Translates ['"'] ['"'] := .self (Text.forall_mem_of_all (by decide))
  refine ⟨['"'] ++ (plain ++ ['"']), ?_, fun rest hrest => ?_⟩
  · rw [stringLiteral, String.toList_ofList]
    exact hquote.append (hplain.translates.append hquote)
  · have hbody : stringBody? (plain ++ '"' :: rest) = some (value.toList, rest) := by
      rw [hplain.reads, stringBody?]
      simp
    have hblock : (plain ++ '"' :: rest).take 2 ≠ ['"', '"'] := by
      cases plain with
      | nil =>
          cases rest with
          | nil => decide
          | cons d ds =>
              have hd := (hrest d rfl).2
              simp_all
      | cons d ds =>
          have hd := hplain.opens d rfl
          simp [hd]
    have hnext : next? '"' (plain ++ '"' :: rest) = some (.string value, rest) := by
      simp [next?, hbody, hblock, (by decide : isWordStart '"' = false)]
    rw [List.append_assoc, List.append_assoc]
    exact lex_cons (by decide) hnext

end EoJava.Java
