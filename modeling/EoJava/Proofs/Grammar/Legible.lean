import EoJava.Grammar.Printed
import EoJava.Proofs.Grammar.Terminal
import EoJava.Proofs.Text.Numeral
import EoJava.Shape.Basic

/-!
# Printed terminals

A terminal is legible if its text can be printed and read again: a name is an identifier, a number a
numeral. Printed terminals stand apart by a space. Each reader of words, literals and marks takes
all of a printed terminal of its own sort and nothing of any other, except that a spelling may be
the start of a longer mark or word (`isPrefixOf_print`).
-/

namespace EoJava.Grammar

namespace Terminal

/-- A terminal as it is printed. -/
def print : Terminal → List Char
  | .indent => indentText.toList
  | .dedent => dedentText.toList
  | .newline => newlineText.toList
  | .mark m => m.text.toList
  | .name text | .number text => text.toList
  | .string value => Text.Quoted.quote value.toList
  | .endOfInput => []

/-- The text of a terminal is one that a source can hold. -/
def Legible : Terminal → Prop
  | .name text => isIdentifier text
  | .number text => Text.Numeral.isNumeral text.toList
  | _ => True

instance : DecidablePred Legible
  | .name text => inferInstanceAs (Decidable (isIdentifier text = true))
  | .number text => inferInstanceAs (Decidable (Text.Numeral.isNumeral text.toList = true))
  | .indent | .dedent | .newline | .mark _ | .string _ | .endOfInput => .isTrue trivial

end Terminal

/-! ## Characters -/

/-- Every character of a name is one of a word. -/
theorem isWordPart_of_isNamePart {c : Char} (h : Lexing.isNamePart c) : isWordPart c := by
  simp only [Lexing.isNamePart, Char.isAlphanum, Bool.or_eq_true] at h
  simp only [isWordPart, Bool.or_eq_true]
  rcases h with (h | h) | h
  · exact .inl (.inl (Text.isLetter_of_isAlpha h))
  · exact .inl (.inr h)
  · exact .inr h

theorem isWordStart_of_isNameStart {c : Char} (h : Lexing.isNameStart c) : isWordStart c := by
  simp only [Lexing.isNameStart, Bool.or_eq_true] at h
  simp only [isWordStart, Bool.or_eq_true]
  exact h.imp_left Text.isLetter_of_isAlpha

theorem isNamePart_of_isNameStart {c : Char} (h : Lexing.isNameStart c) : Lexing.isNamePart c := by
  simp only [Lexing.isNameStart, Bool.or_eq_true] at h
  simp only [Lexing.isNamePart, Char.isAlphanum, Bool.or_eq_true]
  exact h.imp_left .inl

/-- A letter is an ASCII letter or lies beyond ASCII. -/
theorem isAlpha_of_isLetter {c : Char} (h : Text.isLetter c) (hlt : c.toNat < 0x80) :
    c.isAlpha := by
  simp only [Text.isLetter, Bool.or_eq_true, Bool.and_eq_true, decide_eq_true_eq] at h
  rcases h with h | h
  · exact h
  · omega

/-- What an identifier is made of. -/
theorem isIdentifier_iff {text : String} :
    isIdentifier text ↔ ∃ c cs, text.toList = c :: cs ∧ Lexing.isNameStart c ∧
      (∀ d ∈ cs, Lexing.isNamePart d) ∧ Mark.ofWord? text = none := by
  unfold isIdentifier
  cases text.toList with
  | nil => simp
  | cons c cs => simp [and_assoc]

/-- Every character of an identifier goes on a word. -/
theorem isWordPart_of_mem_identifier {text : String} (h : isIdentifier text) :
    ∀ c ∈ text.toList, isWordPart c := by
  obtain ⟨c, cs, htext, hc, hcs, -⟩ := isIdentifier_iff.1 h
  rw [htext]
  intro d hd
  refine isWordPart_of_isNamePart ?_
  rcases List.mem_cons.1 hd with rfl | hd
  · exact isNamePart_of_isNameStart hc
  · exact hcs d hd

/-- A space is no part of a word. -/
theorem head?_space {rest : List Char} : ∀ c ∈ (' ' :: rest).head?, isWordPart c = false := by
  rintro c ⟨⟩
  decide

/-- The ASCII letters lie in two ranges. -/
theorem isAlpha_iff {c : Char} :
    c.isAlpha ↔ (65 ≤ c.toNat ∧ c.toNat ≤ 90) ∨ (97 ≤ c.toNat ∧ c.toNat ≤ 122) := by
  change (decide (65 ≤ c.val ∧ c.val ≤ 90) ||
    (decide (97 ≤ c.val) && decide (c.val ≤ 122))) = true ↔ _
  simp only [Bool.or_eq_true, Bool.and_eq_true, decide_eq_true_eq, UInt32.le_iff_toNat_le]
  rfl

theorem isDigit_iff {c : Char} : c.isDigit ↔ 48 ≤ c.toNat ∧ c.toNat ≤ 57 := by
  simp only [Char.isDigit, Bool.and_eq_true, decide_eq_true_eq, UInt32.le_iff_toNat_le, ge_iff_le]
  rfl

theorem isAlpha_of_isDigit {c : Char} (h : c.isDigit) : c.isAlpha = false := by
  rw [isDigit_iff] at h
  rw [Bool.eq_false_iff, ne_eq, isAlpha_iff]
  omega

/-- What starts a numeral starts no word. -/
theorem isWordStart_of_numeral {c : Char} (h : c = '-' ∨ c.isDigit) : isWordStart c = false := by
  rcases h with rfl | h
  · decide
  · have halpha := isAlpha_of_isDigit h
    rw [isDigit_iff] at h
    have hletter : Text.isLetter c = false := by
      rw [Bool.eq_false_iff]
      intro hc
      rw [isAlpha_of_isLetter hc (by omega)] at halpha
      cases halpha
    have hunderscore : c ≠ '_' := by
      rintro rfl
      exact absurd h.2 (by decide)
    simp [isWordStart, hletter, hunderscore]

/-! ## First characters -/

/-- The character is one that such a terminal starts with when it is printed. -/
def Terminal.startsWith : Terminal → Char → Bool
  | .name _, c => Lexing.isNameStart c
  | .number _, c => c == '-' || c.isDigit
  | .string _, c => c == '"'
  | t, c => t.print.head? == some c

variable {t : Terminal} {rest : List Char}

theorem print_head (ht : t.Legible) (hne : t ≠ .endOfInput) :
    ∃ c cs, t.print = c :: cs ∧ t.startsWith c := by
  cases t with
  | indent | dedent | newline => exact ⟨_, _, rfl, rfl⟩
  | endOfInput => exact absurd rfl hne
  | mark m => cases m <;> exact ⟨_, _, rfl, rfl⟩
  | string value => exact ⟨_, _, rfl, rfl⟩
  | name text =>
      obtain ⟨c, cs, htext, hc, -⟩ := isIdentifier_iff.1 ht
      exact ⟨c, cs, htext, hc⟩
  | number text =>
      obtain ⟨c, cs, htext, hc⟩ := Text.Numeral.exists_cons_of_isNumeral ht
      exact ⟨c, cs, htext, by simpa [Terminal.startsWith] using hc⟩

/-- A terminal starts as a name, as a number, with a quote, or as its fixed spelling does. -/
theorem startsWith_cases {c : Char} (h : t.startsWith c) :
    (t.isName ∧ Lexing.isNameStart c) ∨ (t.isNumber ∧ (c = '-' ∨ c.isDigit)) ∨
      (t.isString ∧ c = '"') ∨ c ∈ "⇥⇤⏎:,()@=oatf".toList := by
  cases t with
  | name text => exact .inl ⟨rfl, h⟩
  | number text => exact .inr (.inl ⟨rfl, by simpa [Terminal.startsWith] using h⟩)
  | string value => exact .inr (.inr (.inl ⟨rfl, eq_of_beq h⟩))
  | endOfInput => cases h
  | indent | dedent | newline =>
      obtain rfl := Option.some.inj (eq_of_beq h)
      decide
  | mark m =>
      cases m <;> obtain rfl := Option.some.inj (eq_of_beq h) <;> decide

/-- A name starts with no digit and no minus sign. -/
theorem not_numeral_of_isNameStart {c : Char} (h : Lexing.isNameStart c) :
    c ≠ '-' ∧ c.isDigit = false := by
  refine ⟨?_, ?_⟩
  · rintro rfl
    exact absurd h (by decide)
  · rw [Bool.eq_false_iff]
    intro hc
    simp only [Lexing.isNameStart, isAlpha_of_isDigit hc, Bool.false_or, beq_iff_eq] at h
    subst h
    exact absurd hc (by decide)

/-! ## Words -/

/-- A word is taken whole if what comes after it does not go on with it. -/
theorem takeWord?_append {c : Char} {cs rest : List Char} (hc : isWordStart c)
    (hcs : ∀ d ∈ cs, isWordPart d) (hrest : ∀ d ∈ rest.head?, isWordPart d = false) :
    takeWord? (c :: cs ++ rest) = some (c :: cs, rest) := by
  simp only [List.cons_append, takeWord?, hc, ↓reduceIte, Text.takeWhile_run hcs hrest,
    Text.dropWhile_run hcs hrest]

/-- An identifier is taken whole as a name if what comes after it does not go on with it. -/
theorem takeName?_append {text : String} {rest : List Char} (h : isIdentifier text)
    (hrest : ∀ d ∈ rest.head?, isWordPart d = false) :
    takeName? (text.toList ++ rest) = some (text.toList, rest) := by
  obtain ⟨c, cs, htext, hc, hcs, hword⟩ := isIdentifier_iff.1 h
  have htaken := takeWord?_append (isWordStart_of_isNameStart hc)
    (fun d hd => isWordPart_of_isNamePart (hcs d hd)) hrest
  rw [← htext] at htaken
  simp [takeName?, htaken, hword]

theorem takeWord?_of_not_isWordStart {c : Char} {cs : List Char} (hc : isWordStart c = false) :
    takeWord? (c :: cs) = none := by
  simp [takeWord?, hc]

namespace Terminal

/-- The terminal is printed as a word. -/
def isWord : Terminal → Bool
  | .name _ => true
  | .mark m => Mark.keywords.contains m
  | _ => false

end Terminal

theorem takeWord?_print (ht : t.Legible) (hne : t ≠ .endOfInput) :
    takeWord? (t.print ++ ' ' :: rest) =
      if t.isWord then some (t.print, ' ' :: rest) else none := by
  cases t with
  | indent | dedent | newline => exact takeWord?_of_not_isWordStart (by decide +kernel)
  | endOfInput => exact absurd rfl hne
  | mark m =>
      cases m
      case objectWord | asWord | trueWord | falseWord =>
        exact takeWord?_append (by decide) (Text.forall_mem_of_all (by decide)) head?_space
      all_goals exact takeWord?_of_not_isWordStart (by decide)
  | string value => exact takeWord?_of_not_isWordStart (by decide)
  | name text =>
      obtain ⟨c, cs, htext, hc, hcs, -⟩ := isIdentifier_iff.1 ht
      simp only [Terminal.print, Terminal.isWord, htext, ↓reduceIte]
      exact takeWord?_append (isWordStart_of_isNameStart hc)
        (fun d hd => isWordPart_of_isNamePart (hcs d hd)) head?_space
  | number text =>
      obtain ⟨c, cs, htext, hc⟩ := Text.Numeral.exists_cons_of_isNumeral ht
      simp only [Terminal.print, Terminal.isWord, htext, Bool.false_eq_true, ↓reduceIte]
      exact takeWord?_of_not_isWordStart (isWordStart_of_numeral hc)

theorem takeName?_print (ht : t.Legible) (hne : t ≠ .endOfInput) :
    takeName? (t.print ++ ' ' :: rest) =
      if t.isName then some (t.print, ' ' :: rest) else none := by
  rw [takeName?, takeWord?_print ht hne]
  cases t with
  | mark m => cases m <;> rfl
  | name text =>
      obtain ⟨-, -, -, -, -, hword⟩ := isIdentifier_iff.1 ht
      simp [Terminal.isWord, Terminal.isName, Terminal.print, hword]
  | _ => rfl

theorem takeBoolean?_print (ht : t.Legible) (hne : t ≠ .endOfInput) :
    takeBoolean? (t.print ++ ' ' :: rest) =
      if t.isTruth then some (t.print, ' ' :: rest) else none := by
  rw [takeBoolean?, takeWord?_print ht hne]
  cases t with
  | mark m => cases m <;> rfl
  | name text =>
      obtain ⟨-, -, -, -, -, hword⟩ := isIdentifier_iff.1 ht
      simp [Terminal.isWord, Terminal.isTruth, Terminal.print, hword]
  | _ => rfl

/-! ## Strings and numbers -/

/-- A character that stands for itself between quotes as the grammar reads them. -/
def IsPlain (c : Char) : Prop :=
  c ≠ '"' ∧ c ≠ '\\' ∧ c ≠ '\n'

instance (c : Char) : Decidable (IsPlain c) :=
  inferInstanceAs (Decidable (_ ∧ _ ∧ _))

/-- A character is printed with a backslash before one character, as four hexadecimal digits, or as
it is. -/
theorem escape_cases (c : Char) :
    (∃ d, Text.Quoted.escape c = ['\\', d]) ∨
      (∃ high low, Text.Quoted.escape c = ['\\', 'u', '0', '0', high, low] ∧
        IsPlain high ∧ IsPlain low) ∨
      Text.Quoted.escape c = [c] ∧ IsPlain c := by
  have hdigit : ∀ n < 16, IsPlain (Text.Quoted.hexDigit n) := by decide
  unfold Text.Quoted.escape
  by_cases hquote : c = '"'
  · exact .inl ⟨_, if_pos hquote⟩
  by_cases hslash : c = '\\'
  · exact .inl ⟨_, by rw [if_neg hquote, if_pos hslash]⟩
  rw [if_neg hquote, if_neg hslash]
  split
  · exact .inl ⟨_, rfl⟩
  split
  · exact .inl ⟨_, rfl⟩
  split
  · exact .inl ⟨_, rfl⟩
  next hfeed =>
    split
    · exact .inl ⟨_, rfl⟩
    split
    · exact .inl ⟨_, rfl⟩
    split
    · exact .inr (.inl ⟨_, _, rfl, hdigit _ (by omega), hdigit _ (by omega)⟩)
    · exact .inr (.inr ⟨rfl, hquote, hslash, hfeed⟩)

/-- There is no control character in a text. -/
def Printable (text : List Char) : Prop :=
  ∀ c ∈ text, 0x20 ≤ c.toNat

instance (text : List Char) : Decidable (Printable text) :=
  List.decidableBAll _ text

/-- No control character stands between the quotes. -/
theorem printable_escape (c : Char) : Printable (Text.Quoted.escape c) := by
  have hdigit : ∀ n < 16, 0x20 ≤ (Text.Quoted.hexDigit n).toNat := by decide
  unfold Text.Quoted.escape
  split_ifs with _ _ _ _ _ _ _ hlow
  iterate 7 · decide
  · have hhigh := hdigit (c.toNat / 16) (by omega)
    have hrest := hdigit (c.toNat % 16) (by omega)
    simp only [Printable, List.forall_mem_cons]
    exact ⟨by decide, by decide, by decide, by decide, hhigh, hrest, List.forall_mem_nil _⟩
  · exact List.forall_mem_singleton.2 (Nat.le_of_not_lt hlow)

/-- A plain character is taken as it is. -/
theorem takeStringTail?_plain {c : Char} (hc : IsPlain c) (text : List Char) :
    takeStringTail? (c :: text) =
      (takeStringTail? text).map fun (taken, after) => (c :: taken, after) := by
  obtain ⟨hquote, hslash, hfeed⟩ := hc
  rw [takeStringTail?.eq_def]
  split <;> simp_all

/-- A backslash takes the next character with it. -/
theorem takeStringTail?_slash (c : Char) (text : List Char) :
    takeStringTail? ('\\' :: c :: text) =
      (takeStringTail? text).map fun (taken, after) => ('\\' :: c :: taken, after) := by
  rw [takeStringTail?]

/-- A printed character is taken whole, whatever follows it. -/
theorem takeStringTail?_escape (c : Char) (text : List Char) :
    takeStringTail? (Text.Quoted.escape c ++ text) =
      (takeStringTail? text).map fun (taken, after) => (Text.Quoted.escape c ++ taken, after) := by
  rcases escape_cases c with ⟨d, h⟩ | ⟨high, low, h, hhigh, hlow⟩ | ⟨h, hc⟩
  · rw [h]
    exact takeStringTail?_slash d text
  · have hzero : IsPlain '0' := by decide
    simp only [h, List.cons_append, List.nil_append, takeStringTail?_slash,
      takeStringTail?_plain hzero, takeStringTail?_plain hhigh, takeStringTail?_plain hlow,
      Option.map_map, Function.comp_def]
  · rw [h]
    exact takeStringTail?_plain hc text

theorem takeStringTail?_quote (value rest : List Char) :
    takeStringTail? (value.flatMap Text.Quoted.escape ++ '"' :: rest) =
      some (value.flatMap Text.Quoted.escape ++ ['"'], rest) := by
  induction value with
  | nil => rfl
  | cons c cs ih => simp [takeStringTail?_escape, ih]

theorem takeString?_print (ht : t.Legible) (hne : t ≠ .endOfInput) :
    takeString? (t.print ++ ' ' :: rest) =
      if t.isString then some (t.print, ' ' :: rest) else none := by
  split
  · next hstring =>
      obtain ⟨value, rfl⟩ : ∃ value, t = .string value := by
        cases t <;> first | exact ⟨_, rfl⟩ | cases hstring
      simp [Terminal.print, Text.Quoted.quote, takeString?, takeStringTail?_quote]
  · next hstring =>
      obtain ⟨c, cs, hprint, hc⟩ := print_head ht hne
      have hquote : c ≠ '"' := by
        rintro rfl
        rcases startsWith_cases hc with ⟨-, h⟩ | ⟨-, h⟩ | ⟨h, -⟩ | h
        · exact absurd h (by decide)
        · exact absurd h (by decide)
        · exact hstring h
        · exact absurd h (by decide)
      rw [hprint]
      unfold takeString?
      split
      · next heq => exact absurd (List.cons.inj heq).1 hquote
      · rfl

theorem take?_print (ht : t.Legible) (hne : t ≠ .endOfInput) :
    Text.Numeral.take? (t.print ++ ' ' :: rest) =
      if t.isNumber then some (t.print, ' ' :: rest) else none := by
  split
  · next hnumber =>
      obtain ⟨text, rfl⟩ : ∃ text, t = .number text := by
        cases t <;> first | exact ⟨_, rfl⟩ | cases hnumber
      exact Text.Numeral.take?_append ht (by simp [Text.Numeral.Ends])
  · next hnumber =>
      obtain ⟨c, cs, hprint, hc⟩ := print_head ht hne
      have hhead : c ≠ '-' ∧ c.isDigit = false := by
        rcases startsWith_cases hc with ⟨-, h⟩ | ⟨h, -⟩ | ⟨-, rfl⟩ | h
        · exact not_numeral_of_isNameStart h
        · exact absurd h hnumber
        · decide
        · have hfixed : ∀ c ∈ "⇥⇤⏎:,()@=oatf".toList, c ≠ '-' ∧ c.isDigit = false :=
            Text.forall_mem_of_all (by decide)
          exact hfixed c h
      rw [hprint]
      exact Text.Numeral.take?_of_head hhead.1 hhead.2

/-! ## Spellings -/

/-- A spelling without a space is found at the front of a printed terminal or not at all. -/
theorem isPrefixOf_space {spelled text : List Char} (h : ' ' ∉ spelled) :
    spelled.isPrefixOf (text ++ ' ' :: rest) = spelled.isPrefixOf text := by
  induction spelled generalizing text with
  | nil => rfl
  | cons c cs ih =>
      obtain ⟨hc, hcs⟩ := List.ne_and_not_mem_of_not_mem_cons h
      cases text with
      | nil => simp [List.isPrefixOf, hc.symm]
      | cons d ds => simp [List.isPrefixOf, ih hcs]

namespace Terminal

/-- The terminals that are printed as layout or punctuation. -/
def symbols : List Terminal :=
  [.indent, .dedent, .newline, .mark .colon, .mark .comma, .mark .leftParen, .mark .rightParen,
    .mark .atSign, .mark .assign, .mark .equals]

end Terminal

/-- The first character of a symbol starts no name, number or string. -/
theorem symbol_head {s : Terminal} (hs : s ∈ Terminal.symbols) :
    ∃ c cs, s.print = c :: cs ∧ c ≠ '"' ∧ c ≠ '-' ∧ c.isDigit = false ∧
      Lexing.isNameStart c = false := by
  simp only [Terminal.symbols, List.mem_cons, List.not_mem_nil, or_false] at hs
  rcases hs with rfl | rfl | rfl | rfl | rfl | rfl | rfl | rfl | rfl | rfl <;>
    exact ⟨_, _, rfl, by decide⟩

theorem space_not_mem_symbol : ∀ s ∈ Terminal.symbols, ' ' ∉ s.print := by
  decide

/-- Among terminals with a fixed spelling, only the colon is the start of another. -/
theorem isPrefixOf_fixed (hfixed : t.text? = none) : ∀ s ∈ Terminal.symbols,
    (s.print.isPrefixOf t.print ↔ t = s ∨ s = .mark .colon ∧ t = .mark .assign) := by
  cases t with
  | mark m => cases m <;> decide
  | indent | dedent | newline | endOfInput => decide
  | name text | number text | string value => cases hfixed

/-- The spelling of a symbol is found where the symbol stands, and that of the colon also where the
mark for a default does. -/
theorem isPrefixOf_print {s : Terminal} (hs : s ∈ Terminal.symbols) (ht : t.Legible) :
    s.print.isPrefixOf (t.print ++ ' ' :: rest) ↔ t = s ∨ s = .mark .colon ∧ t = .mark .assign := by
  rw [isPrefixOf_space (space_not_mem_symbol s hs)]
  cases htext : t.text? with
  | none => exact isPrefixOf_fixed htext s hs
  | some text =>
      obtain ⟨d, ds, hsymbol, hquote, hminus, hdigit, hname⟩ := symbol_head hs
      obtain ⟨c, cs, hprint, hc⟩ := print_head ht (by
        rintro rfl
        cases htext)
      have hne : d ≠ c := by
        rintro rfl
        cases t <;> simp_all [Terminal.startsWith, Terminal.text?]
      have hs' : t ≠ s := by
        rintro rfl
        exact hne (List.cons.inj (hsymbol.symm.trans hprint)).1
      have hassign : t ≠ .mark .assign := by
        rintro rfl
        cases htext
      simp [hsymbol, hprint, List.isPrefixOf, hne, hs', hassign]

/-- A keyword starts as a name does. -/
theorem keyword_head {m : Mark} (hm : m ∈ Mark.keywords) :
    ∃ c cs, m.text.toList = c :: cs ∧ Lexing.isNameStart c := by
  simp only [Mark.keywords, List.mem_cons, List.not_mem_nil, or_false] at hm
  rcases hm with rfl | rfl | rfl | rfl <;> exact ⟨_, _, rfl, by decide⟩

theorem space_not_mem_keyword : ∀ m ∈ Mark.keywords, ' ' ∉ m.text.toList := by
  decide

/-- No keyword is the start of another terminal with a fixed spelling. -/
theorem isPrefixOf_keyword_fixed (hfixed : t.text? = none) : ∀ m ∈ Mark.keywords,
    (m.text.toList.isPrefixOf t.print ↔ t = .mark m) := by
  cases t with
  | mark k => cases k <;> decide
  | indent | dedent | newline | endOfInput => decide
  | name text | number text | string value => cases hfixed

/-- Only at a name is a keyword found that does not stand there. -/
theorem isPrefixOf_keyword {m : Mark} (hm : m ∈ Mark.keywords) (ht : t.Legible)
    (hname : t.isName = false) :
    m.text.toList.isPrefixOf (t.print ++ ' ' :: rest) ↔ t = .mark m := by
  rw [isPrefixOf_space (space_not_mem_keyword m hm)]
  cases htext : t.text? with
  | none => exact isPrefixOf_keyword_fixed htext m hm
  | some text =>
      obtain ⟨d, ds, hkeyword, hd⟩ := keyword_head hm
      obtain ⟨c, cs, hprint, hc⟩ := print_head ht (by
        rintro rfl
        cases htext)
      have hmark : t ≠ .mark m := by
        rintro rfl
        cases htext
      have hne : d ≠ c := by
        rintro rfl
        obtain ⟨hminus, hdigit⟩ := not_numeral_of_isNameStart hd
        cases t with
        | number text => simp [Terminal.startsWith, hminus, hdigit] at hc
        | string value =>
            obtain rfl := eq_of_beq hc
            exact absurd hd (by decide)
        | name text => cases hname
        | indent | dedent | newline | mark | endOfInput => cases htext
      simp [hkeyword, hprint, List.isPrefixOf, hne, hmark]

/-- White space starts no name and no number. -/
theorem not_start_of_isSpace {c : Char} (h : Matcher.isSpace c) :
    Lexing.isNameStart c = false ∧ c ≠ '-' ∧ c.isDigit = false := by
  have hsmall : ∀ n ≤ 0x20, Lexing.isNameStart (.ofNat n) = false ∧ Char.ofNat n ≠ '-' ∧
      (Char.ofNat n).isDigit = false := by decide
  simpa using hsmall c.toNat (of_decide_eq_true h)

/-- A printed terminal does not start with white space. -/
theorem isSpace_print_head (ht : t.Legible) (hne : t ≠ .endOfInput) :
    ∃ c cs, t.print = c :: cs ∧ Matcher.isSpace c = false := by
  obtain ⟨c, cs, hprint, hc⟩ := print_head ht hne
  refine ⟨c, cs, hprint, ?_⟩
  rw [Bool.eq_false_iff]
  intro hspace
  obtain ⟨hname, hminus, hdigit⟩ := not_start_of_isSpace hspace
  rcases startsWith_cases hc with ⟨-, h⟩ | ⟨-, h | h⟩ | ⟨-, rfl⟩ | h
  · rw [hname] at h
    cases h
  · exact hminus h
  · rw [hdigit] at h
    cases h
  · cases hspace
  · have hprinted : ∀ c ∈ "⇥⇤⏎:,()@=oatf".toList, ¬Matcher.isSpace c :=
      Text.forall_mem_of_all (by decide)
    exact hprinted c h hspace

end EoJava.Grammar
