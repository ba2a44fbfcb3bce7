import EoJava.Proofs.Grammar.Completeness
import EoJava.Proofs.Grammar.Follows

/-!
# Single tokens

The matchers of single tokens follow the descents of single leaves: names, literals, layout and
marks. Two spellings need care. A keyword is found at the start of a longer name and fails only
where it would end (`keyword_follows`), and the colon is found at the start of the mark for a
default (`colonLine_follows`).
-/

namespace EoJava.Grammar

open Text (Cursor)
open Matcher (skip rule)

variable {α β γ δ : Type} {sheet : Sheet}

/-! ## Leaves -/

/-- A name that was read at an offset is that of the leaf there. -/
def NameAt (sheet : Sheet) (found : Nat × List Char) (read : Located String) : Prop :=
  sheet.anchors.position found.1 = .ok read.position ∧ String.ofList found.2 = read.value

/-- A printed leaf takes at least one character and the space after it. -/
theorem length_print {t : Terminal} {gap : List Char} {cursor : Cursor} (ht : t.Legible)
    (hne : t ≠ .endOfInput) (hrest : (skip cursor).rest = t.print ++ ' ' :: gap) :
    gap.length + 2 ≤ cursor.rest.length := by
  obtain ⟨c, cs, hprint, -⟩ := print_head ht hne
  have hle := length_skip_le cursor
  rw [hrest, hprint] at hle
  simp only [List.length_append, List.length_cons] at hle
  omega

section

variable {leaf : Leaf} {others : List Leaf} {cursor : Cursor}

/-- Both fail at the start of a leaf. -/
theorem followsAt_refused {m : Matcher α} {p : Descent β} {R : α → β → Prop} {what : Expectation}
    (hstarts : sheet.Starts (skip cursor).offset leaf)
    (hm : m cursor = ⟨none, .single (skip cursor).offset what⟩)
    (hp : p (leaf :: others) = ⟨none, leaf.index⟩) :
    FollowsAt sheet m p R (leaf :: others) cursor := by
  refine ⟨?_, ?_⟩
  · rw [hm, hp]
    exact .none
  · rw [hm, hp]
    exact hstarts.index

/-- Both take a leaf. -/
theorem followsAt_taken {m : Matcher α} {p : Descent β} {R : α → β → Prop} {a : α} {b : β}
    {gap : List Char} (hlegible : leaf.terminal.Legible) (hne : leaf.terminal ≠ .endOfInput)
    (hrest : (skip cursor).rest = leaf.terminal.print ++ ' ' :: gap)
    (hothers : sheet.Shows others ((skip cursor).after leaf.terminal.print (' ' :: gap)))
    (hm : m cursor =
      ⟨some (a, (skip cursor).after leaf.terminal.print (' ' :: gap)), .clear⟩)
    (hp : p (leaf :: others) = ⟨some (b, others), 0⟩) (hvalue : R a b) :
    FollowsAt sheet m p R (leaf :: others) cursor := by
  refine ⟨?_, ?_⟩
  · rw [hm, hp]
    have hlength := length_print hlegible hne hrest
    refine .some ⟨hvalue, hothers, ?_⟩
    simp only [Cursor.after, List.length_cons]
    omega
  · rw [hm, hp]
    exact sheet.index_zero

/-- A leaf that can be read is taken, and nothing is refused. -/
theorem leaf_found {read : Leaf → Option β} {value : β} (h : read leaf = some value) :
    Descent.leaf read (leaf :: others) = ⟨some (value, others), 0⟩ := by
  simp only [Descent.leaf, h]

/-- A leaf that cannot be read is refused at its index. -/
theorem leaf_missed {read : Leaf → Option β} (h : read leaf = none) :
    Descent.leaf read (leaf :: others) = ⟨none, leaf.index⟩ := by
  simp only [Descent.leaf, h]

end

/-- A matcher that takes the printed leaves of one sort follows the descent that reads them. -/
theorem described_follows (description : String)
    {take? : List Char → Option (List Char × List Char)} {sort : Terminal → Bool}
    {read : Leaf → Option β} (hempty : take? [] = none) (hend : sort .endOfInput = false)
    (htake : ∀ {t : Terminal} {rest : List Char}, t.Legible → t ≠ .endOfInput →
      take? (t.print ++ ' ' :: rest) = if sort t then some (t.print, ' ' :: rest) else none)
    (hread : ∀ leaf : Leaf, (read leaf).isSome = sort leaf.terminal) :
    Follows sheet (Matcher.described description take?) (Descent.leaf read) fun found value =>
      ∃ leaf, sheet.Starts found.1 leaf ∧ found.2 = leaf.terminal.print ∧
        read leaf = some value := by
  intro leaves cursor hshows
  cases hshows with
  | @stop leaf _ hterminal hrest hstarts =>
      have hsome := hread leaf
      rw [hterminal, hend, Option.isSome_eq_false_iff, Option.isNone_iff_eq_none] at hsome
      have hm : Matcher.described description take? cursor =
          ⟨none, .single (skip cursor).offset (.thing description)⟩ := by
        simp only [Matcher.described, hrest, hempty]
      exact followsAt_refused hstarts hm (leaf_missed hsome)
  | @leaf leaf others _ gap hlegible hne hrest hstarts hinside hothers =>
      have hfound : take? (leaf.terminal.print ++ ' ' :: gap) = _ := htake hlegible hne
      have hsome := hread leaf
      cases hsort : sort leaf.terminal with
      | true =>
          rw [hsort, Option.isSome_iff_exists] at hsome
          obtain ⟨value, hvalue⟩ := hsome
          rw [hsort, if_pos rfl] at hfound
          have hm : Matcher.described description take? cursor =
              ⟨some (((skip cursor).offset, leaf.terminal.print),
                (skip cursor).after leaf.terminal.print (' ' :: gap)), .clear⟩ := by
            simp only [Matcher.described, hrest, hfound]
          exact followsAt_taken hlegible hne hrest hothers hm (leaf_found hvalue)
            ⟨leaf, hstarts, rfl, hvalue⟩
      | false =>
          rw [hsort, Option.isSome_eq_false_iff, Option.isNone_iff_eq_none] at hsome
          rw [hsort, if_neg Bool.false_ne_true] at hfound
          have hm : Matcher.described description take? cursor =
              ⟨none, .single (skip cursor).offset (.thing description)⟩ := by
            simp only [Matcher.described, hrest, hfound]
          exact followsAt_refused hstarts hm (leaf_missed hsome)

/-- The matcher of names follows the descent of a name. -/
theorem name_follows : Follows sheet Matcher.name Descent.name (NameAt sheet) := by
  refine (described_follows _ rfl rfl takeName?_print fun leaf => ?_).imp ?_
  · cases leaf.terminal <;> rfl
  · rintro ⟨start, _⟩ value ⟨leaf, hstarts, rfl, hvalue⟩
    split at hvalue
    · next text htext =>
        cases hvalue
        exact ⟨hstarts.position, by simp [htext, Terminal.print]⟩
    · cases hvalue

/-! ## Symbols -/

/-- Behind a printed terminal stands what follows it. -/
theorem drop_print {text : String} {s : Terminal} (htext : text.toList = s.print)
    (rest : List Char) : (s.print ++ rest).drop text.length = rest := by
  rw [← htext, ← String.length_toList, List.drop_left]

/-- Layout is taken where it stands. -/
theorem layout_follows (description : String) {s : Terminal} {text : String}
    (hs : s ∈ Terminal.symbols) (hcolon : s ≠ .mark .colon) (htext : text.toList = s.print) :
    Follows sheet (Matcher.described description (takeText? text)) (Descent.exactly s)
      fun _ _ => True := by
  have htake : ∀ {t : Terminal} {rest : List Char}, t.Legible → t ≠ .endOfInput →
      takeText? text (t.print ++ ' ' :: rest) =
        if t == s then some (t.print, ' ' :: rest) else none := by
    intro t rest ht _
    unfold takeText?
    simp only [htext, isPrefixOf_print hs ht, hcolon, false_and, or_false, beq_iff_eq]
    split
    · next heq => rw [heq, drop_print htext]
    · rfl
  obtain ⟨c, cs, hprint, -⟩ := symbol_head hs
  refine (described_follows description ?_ ?_ htake fun leaf => ?_).imp fun _ _ _ => trivial
  · simp [takeText?, htext, hprint]
  · rw [beq_eq_false_iff_ne]
    rintro rfl
    exact absurd hs (by decide)
  · by_cases h : leaf.terminal = s <;> simp [h]

/-- The matcher of line ends follows the descent of one. -/
theorem newline_follows :
    Follows sheet Matcher.newline (Descent.exactly .newline) fun _ _ => True :=
  layout_follows _ (by decide) (by simp) rfl

/-- The matcher of opened blocks follows the descent of one. -/
theorem indent_follows : Follows sheet Matcher.indent (Descent.exactly .indent) fun _ _ => True :=
  layout_follows _ (by decide) (by simp) rfl

/-- The matcher of closed blocks follows the descent of one. -/
theorem dedent_follows : Follows sheet Matcher.dedent (Descent.exactly .dedent) fun _ _ => True :=
  layout_follows _ (by decide) (by simp) rfl

section

variable {leaf : Leaf} {others : List Leaf} {cursor : Cursor}

/-- A spelling that stands at the cursor is taken. -/
theorem spelling_found {text : String} {rest : List Char}
    (h : (skip cursor).rest = text.toList ++ rest) :
    Matcher.spelling text cursor =
      ⟨some ((), (skip cursor).after text.toList rest), .clear⟩ := by
  have hspelled : text.toList.isPrefixOf (text.toList ++ rest) := by simp
  rw [Matcher.spelling, h]
  simp only [hspelled, ↓reduceIte, ← String.length_toList, List.drop_left]

/-- A text that does not stand behind the spaces is expected there. -/
theorem spelling_missed {text : String} (h : text.toList.isPrefixOf (skip cursor).rest = false) :
    Matcher.spelling text cursor =
      ⟨none, .single (skip cursor).offset (.spelling text)⟩ := by
  simp only [Matcher.spelling, h, Bool.false_eq_true, ↓reduceIte]

/-- The terminal that is asked for is taken, and nothing is refused. -/
theorem exactly_found {t : Terminal} (h : leaf.terminal = t) :
    Descent.exactly t (leaf :: others) = ⟨some ((), others), 0⟩ := by
  simp [Descent.exactly, Descent.leaf, h]

/-- Another terminal is refused at its index. -/
theorem exactly_missed {t : Terminal} (h : leaf.terminal ≠ t) :
    Descent.exactly t (leaf :: others) = ⟨none, leaf.index⟩ := by
  simp [Descent.exactly, Descent.leaf, h]

end

/-- Punctuation is taken where it stands. Only the colon is also found elsewhere. -/
theorem spelling_followsAt {m : Mark} (hs : .mark m ∈ Terminal.symbols) {leaves : List Leaf}
    {cursor : Cursor} (hshows : sheet.Shows leaves cursor)
    (hcolon : m = .colon → Begins (· ≠ .mark .assign) leaves) :
    FollowsAt sheet (Matcher.spelling m.text) (Descent.exactly (.mark m)) (fun _ _ => True) leaves
      cursor := by
  obtain ⟨c, cs, hprint, -⟩ := symbol_head hs
  have hspelled : m.text.toList = c :: cs := hprint
  cases hshows with
  | @stop leaf _ hterminal hrest hstarts =>
      exact followsAt_refused hstarts (spelling_missed (by simp [hrest, hspelled]))
        (exactly_missed (by simp [hterminal]))
  | @leaf leaf others _ gap hlegible hne hrest hstarts hinside hothers =>
      by_cases hleaf : leaf.terminal = .mark m
      · have hfound : (skip cursor).rest = m.text.toList ++ ' ' :: gap := by
          rw [hrest, hleaf]
          rfl
        have hm := spelling_found hfound
        exact followsAt_taken hlegible hne hrest hothers (by rw [hm, hleaf]; rfl)
          (exactly_found hleaf) trivial
      · refine followsAt_refused hstarts (spelling_missed ?_) (exactly_missed hleaf)
        rw [hrest]
        refine Bool.eq_false_iff.2 fun h => ?_
        obtain h | ⟨hm, hassign⟩ := (isPrefixOf_print hs hlegible).1 h
        · exact hleaf h
        · exact begins_cons.1 (hcolon (Terminal.mark.inj hm)) hassign

/-- The matcher of a symbol follows the descent of it, unless it is the colon. -/
theorem spelling_follows {m : Mark} (hs : .mark m ∈ Terminal.symbols) (hcolon : m ≠ .colon) :
    Follows sheet (Matcher.spelling m.text) (Descent.exactly (.mark m)) fun _ _ => True :=
  fun _ _ hshows => spelling_followsAt hs hshows fun h => absurd h hcolon

/-- The matcher of commas follows the descent of one. -/
theorem comma_follows :
    Follows sheet (Matcher.spelling ",") (Descent.exactly (.mark .comma)) fun _ _ => True :=
  spelling_follows (m := .comma) (by decide) (by decide)

/-- The matcher of opening parentheses follows the descent of one. -/
theorem leftParen_follows :
    Follows sheet (Matcher.spelling "(") (Descent.exactly (.mark .leftParen)) fun _ _ => True :=
  spelling_follows (m := .leftParen) (by decide) (by decide)

/-- The matcher of closing parentheses follows the descent of one. -/
theorem rightParen_follows :
    Follows sheet (Matcher.spelling ")") (Descent.exactly (.mark .rightParen)) fun _ _ => True :=
  spelling_follows (m := .rightParen) (by decide) (by decide)

/-- The matcher of the sign of stored attributes follows the descent of it. -/
theorem atSign_follows :
    Follows sheet (Matcher.spelling "@") (Descent.exactly (.mark .atSign)) fun _ _ => True :=
  spelling_follows (m := .atSign) (by decide) (by decide)

/-! ## The colon at the end of a line -/

/-- Where no mark for a default stands, the end of a heading is a colon and the end of its line. -/
theorem colonLine_of_ne {leaves : List Leaf} (h : Begins (· ≠ .mark .assign) leaves) :
    Descent.colonLine leaves =
      (do
        Descent.exactly (.mark .colon)
        Descent.exactly .newline : Descent Unit) leaves := by
  unfold Descent.colonLine
  split
  · exact absurd rfl (begins_cons.1 h)
  · rfl

/-- The mark for a default is taken for a colon, so what is refused is the leaf after it. -/
theorem colonLine_of_assign {leaf : Leaf} {others : List Leaf}
    (h : leaf.terminal = .mark .assign) :
    Descent.colonLine (leaf :: others) = ⟨none, leaf.index + 1⟩ := by
  obtain ⟨index, position, terminal⟩ := leaf
  obtain rfl : terminal = .mark .assign := h
  rfl

/-- A colon and the end of its line. At the mark for a default both fail after the colon. -/
theorem colonLine_follows :
    Follows sheet (do Matcher.spelling ":"; Matcher.newline) Descent.colonLine fun _ _ => True := by
  intro leaves cursor hshows
  by_cases hassign : Begins (· ≠ .mark .assign) leaves
  · have hcolon := spelling_followsAt (m := .colon) (by decide) hshows fun _ => hassign
    have hline := hcolon.bind fun _ _ _ => newline_follows
    exact ⟨by rw [colonLine_of_ne hassign]; exact hline.result,
      by rw [colonLine_of_ne hassign]; exact hline.reach⟩
  · cases hshows with
    | @stop leaf _ hterminal hrest hstarts =>
        rw [begins_cons, hterminal] at hassign
        exact absurd (by simp) hassign
    | @leaf leaf others _ gap hlegible hne hrest hstarts hinside hothers =>
        rw [begins_cons, not_not] at hassign
        rw [hassign] at hrest hinside
        have hfound : (skip cursor).rest = ":".toList ++ '=' :: ' ' :: gap := hrest
        have hspelling := spelling_found hfound
        have hnewline : Matcher.newline ((skip cursor).after ":".toList ('=' :: ' ' :: gap)) =
            ⟨none, .single ((skip cursor).offset + 1) (.thing "end of line")⟩ := by
          rw [Matcher.newline, Matcher.described, skip_of_head (by simp [Cursor.after]; decide)]
          rfl
        refine ⟨?_, ?_⟩
        · simp only [Matcher.result_bind, hspelling, Option.bind_some, hnewline,
            colonLine_of_assign hassign]
          exact .none
        · simp only [Matcher.offset_bind, hspelling, Option.map_some, Option.getD_some, hnewline,
            colonLine_of_assign hassign, Frontier.clear, Nat.zero_max]
          exact hinside 1 (by decide) (by decide)

/-- Sequences of three parts are read alike however they are grouped. -/
theorem Follows.of_grouped {m : Matcher α} {n : Matcher β} {k : Matcher γ} {p : Descent δ}
    {R : γ → δ → Prop} (h : Follows sheet ((do let _ ← m; n) >>= fun _ => k) p R) :
    Follows sheet (do let _ ← m; let _ ← n; k) p R := by
  intro leaves cursor hshows
  obtain ⟨hresult, hreach⟩ := h leaves cursor hshows
  simp only [Matcher.result_bind, Matcher.offset_bind] at hresult hreach
  refine ⟨?_, ?_⟩
  · simpa only [Matcher.result_bind, Option.bind_assoc] using hresult
  · rw [← hreach]
    simp only [Matcher.offset_bind]
    rcases (m cursor).result with _ | ⟨a, after⟩
    · simp
    · simp [Nat.max_assoc]

/-! ## Keywords -/

section

variable {m : Mark} {cursor : Cursor}

/-- A keyword whose text does not stand behind the spaces is expected there. -/
theorem keyword_missed (h : m.text.toList.isPrefixOf (skip cursor).rest = false) :
    Matcher.keyword m cursor = ⟨none, .single (skip cursor).offset (.spelling m.text)⟩ := by
  rw [Matcher.keyword, spelling_missed h]

/-- A keyword is found where its text ends at a space. -/
theorem keyword_found {rest : List Char} (h : (skip cursor).rest = m.text.toList ++ ' ' :: rest) :
    Matcher.keyword m cursor =
      ⟨some ((), (skip cursor).after m.text.toList (' ' :: rest)), .clear⟩ := by
  have hspace : isWordPart ' ' = false := by decide
  rw [Matcher.keyword, spelling_found h]
  simp [Cursor.after, hspace]

/-- A word that goes on is no keyword. -/
theorem keyword_cut {d : Char} {rest : List Char}
    (h : (skip cursor).rest = m.text.toList ++ d :: rest) (hd : isWordPart d) :
    Matcher.keyword m cursor =
      ⟨none, .single ((skip cursor).offset + Text.width m.text.toList)
        (.thing "not an identPart")⟩ := by
  rw [Matcher.keyword, spelling_found h]
  simp [Cursor.after, hd]

end

/-- Unless a name stands there, a keyword is read like any other terminal. -/
theorem keyword_of_not_isName (m : Mark) {leaf : Leaf} {others : List Leaf}
    (h : leaf.terminal.isName = false) :
    Descent.keyword m (leaf :: others) = Descent.exactly (.mark m) (leaf :: others) := by
  unfold Descent.keyword
  split
  · next heq =>
      cases heq
      cases h
  · rfl

/-- A name that starts with a keyword is taken for it up to there, so what is refused is the leaf
after it. -/
theorem keyword_of_name (m : Mark) {leaf : Leaf} {others : List Leaf} {text : String}
    (h : leaf.terminal = .name text) :
    Descent.keyword m (leaf :: others) =
      ⟨none, if m.text.toList.isPrefixOf text.toList then leaf.index + 1 else leaf.index⟩ := by
  obtain ⟨index, position, terminal⟩ := leaf
  obtain rfl : terminal = .name text := h
  rfl

/-- A name that starts with a keyword goes on after it. -/
theorem exists_of_isPrefixOf_name {m : Mark} (hm : m ∈ Mark.keywords) {text : String}
    (htext : isIdentifier text) (hstart : m.text.toList.isPrefixOf text.toList) :
    ∃ d ds, text.toList = m.text.toList ++ d :: ds ∧ isWordPart d := by
  obtain ⟨tail, htail⟩ := List.isPrefixOf_iff_prefix.1 hstart
  cases tail with
  | nil =>
      rw [List.append_nil, String.toList_inj] at htail
      obtain ⟨-, -, -, -, -, hword⟩ := isIdentifier_iff.1 htext
      rw [← htail] at hword
      exact absurd hword ((by decide : ∀ m ∈ Mark.keywords, Mark.ofWord? m.text ≠ none) m hm)
  | cons d ds => exact ⟨d, ds, htail.symm, isWordPart_of_mem_identifier htext d (by simp [← htail])⟩

section

variable {m : Mark} {leaf : Leaf} {others : List Leaf} {cursor : Cursor} {gap : List Char}

/-- At a leaf that is no name, a keyword is taken where it stands. -/
theorem keyword_followsAt_of_not_isName (hm : m ∈ Mark.keywords)
    (hname : leaf.terminal.isName = false) (hlegible : leaf.terminal.Legible)
    (hne : leaf.terminal ≠ .endOfInput)
    (hrest : (skip cursor).rest = leaf.terminal.print ++ ' ' :: gap)
    (hstarts : sheet.Starts (skip cursor).offset leaf)
    (hothers : sheet.Shows others ((skip cursor).after leaf.terminal.print (' ' :: gap))) :
    FollowsAt sheet (Matcher.keyword m) (Descent.keyword m) (fun _ _ => True) (leaf :: others)
      cursor := by
  have hdescent : Descent.keyword m (leaf :: others) = _ := keyword_of_not_isName m hname
  by_cases hleaf : leaf.terminal = .mark m
  · have hfound : (skip cursor).rest = m.text.toList ++ ' ' :: gap := by
      rw [hrest, hleaf]
      rfl
    have hm' : Matcher.keyword m cursor =
        ⟨some ((), (skip cursor).after leaf.terminal.print (' ' :: gap)), .clear⟩ := by
      rw [keyword_found hfound, hleaf]
      rfl
    exact followsAt_taken hlegible hne hrest hothers hm' (hdescent.trans (exactly_found hleaf))
      trivial
  · refine followsAt_refused hstarts (keyword_missed ?_) (hdescent.trans (exactly_missed hleaf))
    rw [hrest]
    refine Bool.eq_false_iff.2 fun h => ?_
    exact hleaf ((isPrefixOf_keyword hm hlegible hname).1 h)

/-- No name is a keyword. At a name that goes on after one, both fail where the keyword ends. -/
theorem keyword_followsAt_name (hm : m ∈ Mark.keywords) {text : String}
    (hleaf : leaf.terminal = .name text) (htext : isIdentifier text)
    (hrest : (skip cursor).rest = text.toList ++ ' ' :: gap)
    (hstarts : sheet.Starts (skip cursor).offset leaf)
    (hinside : ∀ k, 0 < k → k ≤ Text.width text.toList →
      sheet.index ((skip cursor).offset + k) = leaf.index + 1) :
    FollowsAt sheet (Matcher.keyword m) (Descent.keyword m) (fun _ _ => True) (leaf :: others)
      cursor := by
  have hdescent : Descent.keyword m (leaf :: others) = _ := keyword_of_name m hleaf
  cases hstart : m.text.toList.isPrefixOf text.toList with
  | false =>
      rw [hstart] at hdescent
      refine followsAt_refused hstarts (keyword_missed ?_) hdescent
      rw [hrest]
      exact (isPrefixOf_space (space_not_mem_keyword m hm)).trans hstart
  | true =>
      obtain ⟨d, ds, htail, hd⟩ := exists_of_isPrefixOf_name hm htext hstart
      obtain ⟨c, cs, hkeyword, -⟩ := keyword_head hm
      rw [hstart] at hdescent
      have hfound : (skip cursor).rest = m.text.toList ++ d :: (ds ++ ' ' :: gap) := by
        rw [hrest, htail, List.append_assoc]
        rfl
      have hcut := keyword_cut hfound hd
      -- The end of the keyword lies inside the name, so it belongs to the leaf after it.
      have hpos : 0 < Text.width m.text.toList := by
        rw [hkeyword]
        exact Nat.add_pos_left (Text.units_pos c) _
      refine ⟨?_, ?_⟩
      · rw [hcut, hdescent]
        exact .none
      · rw [hcut, hdescent]
        exact hinside _ hpos (by simp [htail])

end

/-- A keyword. At a longer name both fail where the keyword would end. -/
theorem keyword_follows {m : Mark} (hm : m ∈ Mark.keywords) :
    Follows sheet (Matcher.keyword m) (Descent.keyword m) fun _ _ => True := by
  intro leaves cursor hshows
  cases hshows with
  | @stop leaf _ hterminal hrest hstarts =>
      obtain ⟨c, cs, hkeyword, -⟩ := keyword_head hm
      have hdescent : Descent.keyword m [leaf] = _ :=
        keyword_of_not_isName m (by rw [hterminal]; rfl)
      exact followsAt_refused hstarts (keyword_missed (by simp [hrest, hkeyword]))
        (hdescent.trans (exactly_missed (by simp [hterminal])))
  | @leaf leaf others _ gap hlegible hne hrest hstarts hinside hothers =>
      cases hname : leaf.terminal.isName with
      | false =>
          exact keyword_followsAt_of_not_isName hm hname hlegible hne hrest hstarts hothers
      | true =>
          obtain ⟨text, hleaf⟩ : ∃ text, leaf.terminal = .name text := by
            revert hname
            cases leaf.terminal <;> simp [Terminal.isName]
          rw [hleaf] at hlegible hrest hinside
          exact keyword_followsAt_name hm hleaf hlegible hrest hstarts hinside

end EoJava.Grammar
