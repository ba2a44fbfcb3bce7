import Mathlib.Algebra.Order.BigOperators.Group.List
import Mathlib.Algebra.Order.Ring.Nat
import Mathlib.Data.List.Forall2
import Mathlib.Data.List.Perm.Basic
import EoJava.Diagnostic.Basic

/-!
# Interpolation

A placeholder is a word between braces. Every text is split at its leftmost placeholders in one way
only (`Splits.exists`, `Splits.unique`), and a template is filled by putting an argument in the
place of each of them (`fillText_splits`). So the text of an argument is not read again, and only
the arguments that a placeholder names count. A placeholder without an argument stays as it is,
unless its name is inherited (`fillText_inherited`). The messages of the catalog are filled like
this (`Diagnostic.fillText_make`).
-/

namespace EoJava

/-! ## Arguments -/

namespace Arguments

variable {arguments others : Arguments}

/-- Of arguments with different names, the one that is found is the one that is there. -/
theorem lookup_eq_some_iff (h : (arguments.map Prod.fst).Nodup) {name : String} {value : Scalar} :
    arguments.lookup name = some value ↔ (name, value) ∈ arguments := by
  rw [List.lookup_eq_some_iff]
  constructor
  · rintro ⟨first, later, rfl, -⟩
    exact List.mem_append_right _ List.mem_cons_self
  · intro hmem
    obtain ⟨first, later, rfl⟩ := List.append_of_mem hmem
    refine ⟨first, later, rfl, fun other hother => bne_iff_ne.2 ?_⟩
    rw [List.map_append, List.nodup_append] at h
    exact (h.2.2 _ (List.mem_map_of_mem hother) _ (by simp)).symm

/-- No argument is found under a name exactly if there is none of that name. -/
theorem lookup_eq_none_iff {name : String} :
    arguments.lookup name = none ↔ ∀ value, (name, value) ∉ arguments := by
  rw [List.lookup_eq_none_iff]
  constructor
  · intro h value hmem
    simpa using h _ hmem
  · rintro h ⟨other, value⟩ hmem
    refine bne_iff_ne.2 ?_
    rintro rfl
    exact h value hmem

/-- The order of arguments with different names does not count. -/
theorem lookup_eq_of_perm (hperm : others.Perm arguments) (h : (arguments.map Prod.fst).Nodup)
    (name : String) : others.lookup name = arguments.lookup name := by
  have hothers : (others.map Prod.fst).Nodup := (hperm.map Prod.fst).nodup_iff.2 h
  ext value
  rw [lookup_eq_some_iff h, lookup_eq_some_iff hothers, hperm.mem_iff]

end Arguments

namespace Template

/-! ## Placeholders -/

/-- The letters of words: ASCII letters, digits and underscores. -/
def IsLetter (c : Char) : Prop :=
  'a' ≤ c ∧ c ≤ 'z' ∨ 'A' ≤ c ∧ c ≤ 'Z' ∨ '0' ≤ c ∧ c ≤ '9' ∨ c = '_'

/-- A word has one or more letters. -/
structure IsWord (word : List Char) : Prop where
  nonempty : word ≠ []
  letters : ∀ c ∈ word, IsLetter c

/-- A word between braces. -/
def placeholder (word : List Char) : List Char :=
  '\x7b' :: (word ++ ['\x7d'])

/-- A placeholder stands in a text at an offset. -/
def HoleAt (text : List Char) (offset : Nat) (word : List Char) : Prop :=
  IsWord word ∧ placeholder word <+: text.drop offset

/-- A text is split, left to right, into its leftmost placeholders that do not overlap, and the text
between them. -/
inductive Splits : List Char → Template → Prop
  | text {text : List Char} (hnone : ∀ offset word, ¬HoleAt text offset word) :
      Splits text [.text (.ofList text)]
  | hole {before word rest : List Char} {pieces : Template} (hword : IsWord word)
      (hfirst : ∀ offset other, HoleAt (before ++ (placeholder word ++ rest)) offset other →
        before.length ≤ offset)
      (hrest : Splits rest pieces) :
      Splits (before ++ (placeholder word ++ rest))
        (.text (.ofList before) :: .hole (.ofList word) :: pieces)

/-- The characters of words are their letters. -/
theorem isWordChar_iff {c : Char} : isWordChar c = true ↔ IsLetter c := by
  delta isWordChar Char.isAlphanum Char.isAlpha Char.isUpper Char.isLower Char.isDigit
  simp only [IsLetter, Bool.or_eq_true, Bool.and_eq_true, decide_eq_true_eq, beq_iff_eq,
    Char.le_def]
  tauto

theorem not_isLetter_brace : ¬IsLetter '\x7d' := by
  rw [← isWordChar_iff]
  decide

/-- The word of a hole is what is read behind its opening brace. -/
theorem holeName?_eq_some_iff {text word rest : List Char} :
    holeName? text = some (word, rest) ↔ IsWord word ∧ text = word ++ '\x7d' :: rest := by
  constructor
  · intro h
    refine ⟨?_, eq_of_holeName? h⟩
    unfold holeName? at h
    split at h
    · next c name left hname hleft =>
        cases h
        have hall : (c :: name).all isWordChar := hname ▸ List.all_takeWhile
        exact ⟨List.cons_ne_nil c name, fun d hd => isWordChar_iff.1 (List.all_eq_true.1 hall d hd)⟩
    · cases h
  · rintro ⟨hword, rfl⟩
    have hletters : ∀ c ∈ word, isWordChar c := fun c hc => isWordChar_iff.2 (hword.letters c hc)
    have hbrace : ¬isWordChar '\x7d' := mt isWordChar_iff.1 not_isLetter_brace
    obtain ⟨c, name, rfl⟩ := List.exists_cons_of_ne_nil hword.nonempty
    rw [holeName?, List.takeWhile_append_of_pos hletters, List.dropWhile_append_of_pos hletters,
      List.takeWhile_cons_of_neg hbrace, List.dropWhile_cons_of_neg hbrace, List.append_nil]
    rfl

/-- At the start of a text, a hole is a brace with a word to be read behind it. -/
theorem holeAt_zero_iff {c : Char} {cs word : List Char} :
    HoleAt (c :: cs) 0 word ↔ c = '\x7b' ∧ ∃ rest, holeName? cs = some (word, rest) := by
  simp only [HoleAt, placeholder, List.drop_zero, List.cons_prefix_cons, holeName?_eq_some_iff]
  constructor
  · rintro ⟨hword, rfl, rest, hrest⟩
    exact ⟨rfl, rest, hword, by rw [← hrest, List.append_assoc, List.singleton_append]⟩
  · rintro ⟨rfl, rest, hword, rfl⟩
    exact ⟨hword, rfl, rest, by rw [List.append_assoc, List.singleton_append]⟩

theorem HoleAt.cons {text word : List Char} {offset : Nat} (h : HoleAt text offset word)
    (c : Char) : HoleAt (c :: text) (offset + 1) word :=
  h

/-- A placeholder stands behind what comes before it. -/
theorem holeAt_append {word : List Char} (hword : IsWord word) (before rest : List Char) :
    HoleAt (before ++ (placeholder word ++ rest)) before.length word := by
  refine ⟨hword, ?_⟩
  rw [List.drop_left]
  exact List.prefix_append _ _

/-! ## The split of a text -/

/-- A letter before which no hole stands belongs to the text before the first hole. -/
theorem Splits.cons {c : Char} {text : List Char} {pieces : Template} (h : Splits text pieces)
    (hc : ∀ word, ¬HoleAt (c :: text) 0 word) : ∃ longer, Splits (c :: text) longer := by
  cases h with
  | text hnone =>
      refine ⟨_, .text fun offset word => ?_⟩
      cases offset with
      | zero => exact hc word
      | succ offset => exact hnone offset word
  | @hole before word rest pieces hword hfirst hrest =>
      refine ⟨_, @Splits.hole (c :: before) _ _ _ hword (fun offset other hother => ?_) hrest⟩
      cases offset with
      | zero => exact absurd hother (hc other)
      | succ offset => exact Nat.succ_le_succ (hfirst offset other hother)

/-- Every text can be split. -/
theorem Splits.exists (text : List Char) : ∃ pieces, Splits text pieces := by
  fun_induction parse text with
  | case1 =>
      refine ⟨_, .text fun offset word h => ?_⟩
      simpa [placeholder] using h.2
  | case2 cs word rest hhole ih =>
      obtain ⟨pieces, hpieces⟩ := ih
      obtain ⟨hword, rfl⟩ := holeName?_eq_some_iff.1 hhole
      have hsplit := @Splits.hole [] _ _ _ hword (fun _ _ _ => Nat.zero_le _) hpieces
      rw [List.nil_append, placeholder, List.cons_append, List.append_assoc,
        List.singleton_append] at hsplit
      exact ⟨_, hsplit⟩
  | case3 cs hnone ih =>
      obtain ⟨pieces, hpieces⟩ := ih
      refine hpieces.cons fun word h => ?_
      obtain ⟨-, rest, hrest⟩ := holeAt_zero_iff.1 h
      rw [hnone] at hrest
      cases hrest
  | case4 c cs hbrace ih =>
      obtain ⟨pieces, hpieces⟩ := ih
      exact hpieces.cons fun word h => hbrace (holeAt_zero_iff.1 h).1

/-- A text is split in one way. -/
theorem Splits.unique {text : List Char} {pieces others : Template} (h : Splits text pieces)
    (h' : Splits text others) : others = pieces := by
  induction h generalizing others with
  | text hnone =>
      cases h' with
      | text => rfl
      | hole hword => exact absurd (holeAt_append hword _ _) (hnone _ _)
  | @hole before word rest pieces hword hfirst hrest ih =>
      generalize htext : before ++ (placeholder word ++ rest) = text at h'
      cases h' with
      | text hnone =>
          subst htext
          exact absurd (holeAt_append hword before rest) (hnone _ _)
      | @hole before' word' rest' pieces' hword' hfirst' hrest' =>
          -- Each split starts with the first hole, so they have it at the same place.
          have hle : before.length ≤ before'.length := by
            refine hfirst _ word' ?_
            rw [htext]
            exact holeAt_append hword' before' rest'
          have hge : before'.length ≤ before.length := by
            refine hfirst' _ word ?_
            rw [← htext]
            exact holeAt_append hword before rest
          obtain ⟨rfl, hhole⟩ := List.append_inj htext (Nat.le_antisymm hle hge)
          have hread : some (word, rest) = some (word', rest') := by
            rw [← holeName?_eq_some_iff.2 ⟨hword, rfl⟩, ← holeName?_eq_some_iff.2 ⟨hword', rfl⟩]
            simpa [placeholder] using congrArg (holeName? ∘ List.tail) hhole
          cases hread
          rw [ih hrest']

/-! ## Filling a split text -/

/-- What stands for a piece when arguments are put in: the argument of its name for a hole, and what
is written for text and for a hole of which no argument is given. -/
inductive Substitutes (arguments : Arguments) : Piece → String → Prop
  | text (value : String) : Substitutes arguments (.text value) value
  | argument {name : String} {value : Scalar} (h : arguments.lookup name = some value) :
      Substitutes arguments (.hole name) value.display
  | missing {name : String} (h : ∀ value, (name, value) ∉ arguments) :
      Substitutes arguments (.hole name) (.ofList (placeholder name.toList))

/-- What a piece shows: what arguments put in its place, but for a hole of which no argument is
given and whose name is inherited. Such a hole shows what is inherited. -/
inductive Shows (arguments : Arguments) : Piece → String → Prop
  | text (value : String) : Shows arguments (.text value) value
  | argument {name : String} {value : Scalar} (h : arguments.lookup name = some value) :
      Shows arguments (.hole name) value.display
  | inherited {name text : String} (hnone : ∀ value, (name, value) ∉ arguments)
      (h : Arguments.inherited.lookup name = some text) : Shows arguments (.hole name) text
  | missing {name : String} (hnone : ∀ value, (name, value) ∉ arguments)
      (h : Arguments.inherited.lookup name = none) :
      Shows arguments (.hole name) (.ofList (placeholder name.toList))

/-- No hole is filled with what is inherited: a hole whose name is inherited has an argument. -/
def Covers (arguments : Arguments) (pieces : Template) : Prop :=
  ∀ name, .hole name ∈ pieces → (∀ value, (name, value) ∉ arguments) →
    Arguments.inherited.lookup name = none

/-- Pieces are covered if each of them is. -/
theorem covers_iff_forall {arguments : Arguments} {pieces : Template} :
    Covers arguments pieces ↔ ∀ piece ∈ pieces, Covers arguments [piece] := by
  simp only [Covers, List.mem_singleton]
  constructor
  · rintro h _ hpiece name rfl
    exact h name hpiece
  · intro h name hpiece
    exact h _ hpiece name rfl

/-- A hole is written as a placeholder. -/
theorem source_hole (name : String) :
    (Piece.hole name).source = .ofList (placeholder name.toList) := by
  apply String.toList_inj.1
  simp [Piece.source, placeholder]

/-- What a piece shows is what it is filled with. -/
theorem shows_fillPiece (arguments : Arguments) (piece : Piece) :
    Shows arguments piece (fillPiece arguments piece) := by
  cases piece with
  | text value => exact .text value
  | hole name =>
      rw [fillPiece, Arguments.text?]
      cases hown : arguments.lookup name with
      | some value => exact .argument hown
      | none =>
          have hnone := Arguments.lookup_eq_none_iff.1 hown
          cases hinherited : Arguments.inherited.lookup name with
          | some text => exact .inherited hnone hinherited
          | none =>
              rw [Option.map_none, Option.or_none, Option.getD_none, source_hole]
              exact .missing hnone hinherited

/-- The text of a piece when arguments and nothing else are put in. -/
def substitutePiece (arguments : Arguments) : Piece → String
  | .text value => value
  | .hole name => ((arguments.lookup name).map Scalar.display).getD (Piece.hole name).source

/-- What is to stand for a piece can be computed. -/
theorem substitutes_substitutePiece (arguments : Arguments) (piece : Piece) :
    Substitutes arguments piece (substitutePiece arguments piece) := by
  cases piece with
  | text value => exact .text value
  | hole name =>
      rw [substitutePiece]
      cases hown : arguments.lookup name with
      | some value => exact .argument hown
      | none =>
          rw [Option.map_none, Option.getD_none, source_hole]
          exact .missing (Arguments.lookup_eq_none_iff.1 hown)

/-- What is inherited has a longer text than the hole of its name. -/
theorem length_source_lt {name text : String}
    (h : Arguments.inherited.lookup name = some text) :
    (Piece.hole name).source.length < text.length := by
  have hall : ∀ entry ∈ Arguments.inherited,
      (Piece.hole entry.1).source.length < entry.2.length := by
    decide +kernel
  obtain ⟨before, after, hsplit, -⟩ := List.lookup_eq_some_iff.1 h
  exact hall (name, text) (hsplit ▸ List.mem_append_right _ List.mem_cons_self)

/-- A hole that is filled with what is inherited becomes longer than it is to be, and every other
piece becomes what it is to be. -/
theorem fillPiece_cases (arguments : Arguments) (piece : Piece) :
    fillPiece arguments piece = substitutePiece arguments piece ∧ Covers arguments [piece] ∨
      (substitutePiece arguments piece).length < (fillPiece arguments piece).length ∧
        ¬Covers arguments [piece] := by
  cases piece with
  | text value => exact .inl ⟨rfl, fun name h => by simp at h⟩
  | hole name =>
      simp only [Covers, List.mem_singleton, Piece.hole.injEq, forall_eq,
        ← Arguments.lookup_eq_none_iff]
      rw [fillPiece, substitutePiece, Arguments.text?]
      cases hown : arguments.lookup name with
      | some value => exact .inl ⟨rfl, fun h => absurd h (Option.some_ne_none value)⟩
      | none =>
          cases hinherited : Arguments.inherited.lookup name with
          | some text =>
              exact .inr ⟨length_source_lt hinherited, fun h => Option.some_ne_none text (h rfl)⟩
          | none => exact .inl ⟨rfl, fun _ => rfl⟩

/-- Pieces are filled with what they are to be if and only if none is filled with what is
inherited. -/
theorem fill_eq_iff (arguments : Arguments) (pieces : Template) :
    fill arguments pieces = String.join (pieces.map (substitutePiece arguments)) ↔
      Covers arguments pieces := by
  rw [covers_iff_forall, fill]
  constructor
  · intro hsame piece hpiece
    by_contra huncovered
    -- One piece is too long and none is too short.
    have hle : ∀ other ∈ pieces, (substitutePiece arguments other).length ≤
        (fillPiece arguments other).length := fun other _ => by
      obtain ⟨hequal, -⟩ | ⟨hlt, -⟩ := fillPiece_cases arguments other
      · rw [hequal]
      · exact Nat.le_of_lt hlt
    obtain ⟨-, hcovered⟩ | ⟨hlt, -⟩ := fillPiece_cases arguments piece
    · exact huncovered hcovered
    · have hsum := List.sum_lt_sum _ _ hle ⟨piece, hpiece, hlt⟩
      have hlength := congrArg String.length hsame
      rw [String.length_join, String.length_join, List.map_map, List.map_map] at hlength
      exact absurd hlength.symm (Nat.ne_of_lt hsum)
  · intro h
    refine congrArg String.join (List.map_congr_left fun piece hpiece => ?_)
    obtain ⟨hequal, -⟩ | ⟨-, huncovered⟩ := fillPiece_cases arguments piece
    · exact hequal
    · exact absurd (h piece hpiece) huncovered

/-- Text of a template, each character a piece of its own. -/
def letters (text : List Char) : Template :=
  text.map fun c => .text (.singleton c)

theorem fill_cons (arguments : Arguments) (piece : Piece) (template : Template) :
    fill arguments (piece :: template) = fillPiece arguments piece ++ fill arguments template := by
  simp [fill]

/-- Templates in turn are filled in turn. -/
theorem fill_append (arguments : Arguments) (first second : Template) :
    fill arguments (first ++ second) = fill arguments first ++ fill arguments second := by
  simp [fill, String.join_append]

/-- Text is filled with itself. -/
theorem fill_letters (arguments : Arguments) (text : List Char) :
    fill arguments (letters text) = .ofList text := by
  induction text with
  | nil => rfl
  | cons c cs ih =>
      rw [letters, List.map_cons, fill_cons, ← letters, ih]
      apply String.toList_inj.1
      simp [fillPiece]

/-- A letter before which no hole stands is read as text. -/
theorem parse_letter {c : Char} {cs : List Char} (h : ∀ word, ¬HoleAt (c :: cs) 0 word) :
    parse (c :: cs) = .text (.singleton c) :: parse cs := by
  rw [parse]
  split
  · next hbrace =>
      split
      · next word rest hhole => exact absurd (holeAt_zero_iff.2 ⟨hbrace, rest, hhole⟩) (h word)
      · rfl
  · rfl

/-- A placeholder is read as a hole. -/
theorem parse_placeholder {word : List Char} (hword : IsWord word) (rest : List Char) :
    parse (placeholder word ++ rest) = .hole (.ofList word) :: parse rest := by
  have hhole : holeName? (word ++ '\x7d' :: rest) = some (word, rest) :=
    holeName?_eq_some_iff.2 ⟨hword, rfl⟩
  rw [placeholder, List.cons_append, List.append_assoc, List.singleton_append, parse, if_pos rfl]
  split
  · next found left hfound =>
      rw [hhole] at hfound
      cases hfound
      rfl
  · next hnone =>
      rw [hhole] at hnone
      cases hnone

/-- What stands before the first hole is read as text. -/
theorem parse_append {before rest : List Char}
    (h : ∀ offset word, HoleAt (before ++ rest) offset word → before.length ≤ offset) :
    parse (before ++ rest) = letters before ++ parse rest := by
  induction before with
  | nil => rfl
  | cons c before ih =>
      have hstart : ∀ word, ¬HoleAt (c :: (before ++ rest)) 0 word := fun word hhole =>
        absurd (h 0 word hhole) (Nat.not_succ_le_zero _)
      rw [List.cons_append, parse_letter hstart,
        ih fun offset word hhole => Nat.le_of_succ_le_succ (h _ word (hhole.cons c))]
      rfl

/-- A split text is filled piece by piece. -/
theorem fillText_of_splits {template : String} {pieces : Template}
    (h : Splits template.toList pieces) (arguments : Arguments) :
    fillText arguments template = fill arguments pieces := by
  rw [fillText]
  generalize template.toList = text at h
  induction h with
  | @text text hnone =>
      have hparse : parse (text ++ []) = letters text ++ parse [] :=
        parse_append fun offset word hhole => by
          rw [List.append_nil] at hhole
          exact absurd hhole (hnone offset word)
      rw [List.append_nil, parse, List.append_nil] at hparse
      rw [hparse, fill_letters, fill_cons]
      exact String.append_empty.symm
  | @hole before word rest pieces hword hfirst hrest ih =>
      rw [parse_append hfirst, parse_placeholder hword, fill_append, fill_letters, fill_cons,
        fill_cons, fill_cons, ih]
      rfl

/-- Every template is split in one way, and it is filled by putting in, all at once, what is shown
for each piece of the split. That is the argument of its name for a placeholder that has one, and
otherwise the placeholder itself, exactly if no placeholder without an argument has an inherited
name. Only the arguments that a placeholder names count, and their order does not. -/
theorem fillText_splits (template : String) (arguments : Arguments) :
    ∃ pieces, Splits template.toList pieces ∧
      (∀ others, Splits template.toList others → others = pieces) ∧
      (∃ shown, List.Forall₂ (Shows arguments) pieces shown ∧
        fillText arguments template = String.join shown) ∧
      (∃ substituted, List.Forall₂ (Substitutes arguments) pieces substituted ∧
        (fillText arguments template = String.join substituted ↔ Covers arguments pieces)) ∧
      (∀ others : Arguments,
        (∀ name, .hole name ∈ pieces → others.lookup name = arguments.lookup name) →
        fillText others template = fillText arguments template) ∧
      ∀ others : Arguments, others.Perm arguments → (arguments.map Prod.fst).Nodup →
        fillText others template = fillText arguments template := by
  obtain ⟨pieces, hpieces⟩ := Splits.exists template.toList
  have hsame : ∀ others : Arguments,
      (∀ name, .hole name ∈ pieces → others.lookup name = arguments.lookup name) →
      fillText others template = fillText arguments template := by
    intro others hothers
    rw [fillText_of_splits hpieces, fillText_of_splits hpieces, fill, fill]
    refine congrArg String.join (List.map_congr_left fun piece hpiece => ?_)
    cases piece with
    | text value => rfl
    | hole name => rw [fillPiece, fillPiece, Arguments.text?, Arguments.text?, hothers name hpiece]
  refine ⟨pieces, hpieces, fun _ => hpieces.unique, ⟨_, ?_, fillText_of_splits hpieces arguments⟩,
    ⟨pieces.map (substitutePiece arguments), ?_, ?_⟩, hsame,
    fun others hperm hnodup => hsame others fun name _ => ?_⟩
  · exact List.forall₂_map_right_iff.2 (List.forall₂_same.2 fun piece _ => shows_fillPiece _ piece)
  · exact List.forall₂_map_right_iff.2
      (List.forall₂_same.2 fun piece _ => substitutes_substitutePiece _ piece)
  · rw [fillText_of_splits hpieces]
    exact fill_eq_iff arguments pieces
  · exact Arguments.lookup_eq_of_perm hperm hnodup name

/-- A placeholder without an argument is to be kept, but one with an inherited name is filled with
what is inherited. -/
theorem fillText_inherited :
    let template := "\x7btoString\x7d"
    ∃ pieces substituted, Splits template.toList pieces ∧
      List.Forall₂ (Substitutes []) pieces substituted ∧ String.join substituted = template ∧
      fillText [] template = "function toString() \x7b [native code] \x7d" := by
  intro template
  have hword : IsWord "toString".toList :=
    ⟨by decide +kernel, fun c hc => isWordChar_iff.1 (List.all_eq_true.1 (by decide +kernel) c hc)⟩
  have hnone : ∀ offset word, ¬HoleAt [] offset word := fun offset word h => by
    simpa [placeholder] using h.2
  have htext : template.toList = [] ++ (placeholder "toString".toList ++ []) := by decide +kernel
  rw [htext]
  refine ⟨_, ["", template, ""], .hole hword (fun _ _ _ => Nat.zero_le _) (.text hnone),
    .cons (.text _) (.cons ?_ (.cons (.text _) .nil)), by decide +kernel, by decide +kernel⟩
  exact .missing nofun

/-! ## Written templates -/

/-- What is written for a template is what is written for its pieces. -/
theorem source_cons (piece : Piece) (template : Template) :
    source (piece :: template) = piece.source ++ source template := by
  simp [source]

/-- A template that is read from a text is written as this text. -/
theorem source_parse (text : List Char) : source (parse text) = .ofList text := by
  apply String.toList_inj.1
  fun_induction parse text with
  | case1 => rfl
  | case2 cs word rest hhole ih =>
      obtain ⟨-, rfl⟩ := holeName?_eq_some_iff.1 hhole
      simp [source_cons, Piece.source, ih]
  | case3 cs hnone ih => simp [source_cons, Piece.source, ih]
  | case4 c cs hbrace ih => simp [source_cons, Piece.source, ih]

end Template

/-- A piece is read as it is written: text opens no hole, and the name of a hole is a word. -/
def Piece.Legible : Piece → Prop
  | .text value => '\x7b' ∉ value.toList
  | .hole name => name.toList ≠ [] ∧ name.toList.all Template.isWordChar

instance (piece : Piece) : Decidable piece.Legible :=
  match piece with
  | .text value => inferInstanceAs (Decidable ('\x7b' ∉ value.toList))
  | .hole name =>
      inferInstanceAs (Decidable (name.toList ≠ [] ∧ name.toList.all Template.isWordChar))

namespace Template

theorem isWord_of_legible {name : String} (h : (Piece.hole name).Legible) :
    IsWord name.toList :=
  ⟨h.1, fun c hc => isWordChar_iff.1 (List.all_eq_true.1 h.2 c hc)⟩

/-- A hole that opens in the first part of a text has its opening brace there. -/
theorem HoleAt.mem {before rest word : List Char} {offset : Nat}
    (h : HoleAt (before ++ rest) offset word) (hoffset : offset < before.length) :
    '\x7b' ∈ before := by
  obtain ⟨after, hafter⟩ := h.2
  rw [List.drop_append_of_le_length (Nat.le_of_lt hoffset), List.drop_eq_getElem_cons hoffset,
    placeholder, List.cons_append, List.cons_append] at hafter
  rw [(List.cons.inj hafter).1]
  exact List.getElem_mem hoffset

/-- A template whose pieces are read as they are written is filled as it is written. -/
theorem fillText_source {template : Template} (h : ∀ piece ∈ template, piece.Legible)
    (arguments : Arguments) : fillText arguments template.source = fill arguments template := by
  induction template with
  | nil => rw [fillText, source, List.map_nil, String.join_nil, String.toList_empty, parse]
  | cons piece template ih =>
      obtain ⟨hpiece, htemplate⟩ := List.forall_mem_cons.1 h
      have hrest : fill arguments (parse (source template).toList) = fill arguments template :=
        ih htemplate
      rw [fillText, source_cons, String.toList_append, fill_cons]
      cases piece with
      | text value =>
          have hfirst : ∀ offset word,
              HoleAt (value.toList ++ (source template).toList) offset word →
                value.toList.length ≤ offset := by
            intro offset word hhole
            by_contra hoffset
            exact hpiece (hhole.mem (Nat.lt_of_not_le hoffset))
          rw [Piece.source, parse_append hfirst, fill_append, fill_letters, hrest, fillPiece,
            String.ofList_toList]
      | hole name =>
          rw [source_hole, String.toList_ofList, parse_placeholder (isWord_of_legible hpiece),
            fill_cons, hrest, String.ofList_toList]

end Template

/-- The catalog is read as it is written. -/
theorem Code.legible_entry (code : Code) :
    ∀ piece ∈ code.entry.message ++ code.entry.suggestion, piece.Legible := by
  cases code <;> decide +kernel

/-- The message and the suggestion of a diagnostic are those of the catalog with its arguments
filled in. -/
theorem Diagnostic.fillText_make (code : Code) (position : Position) (arguments : Option Arguments)
    (token : Option Nat) :
    (make code position arguments token).message =
        Template.fillText (arguments.getD []) code.entry.message.source ∧
      (make code position arguments token).suggestion =
        Template.fillText (arguments.getD []) code.entry.suggestion.source := by
  obtain ⟨hmessage, hsuggestion⟩ := List.forall_mem_append.1 code.legible_entry
  rw [Template.fillText_source hmessage, Template.fillText_source hsuggestion]
  exact ⟨rfl, rfl⟩

end EoJava
