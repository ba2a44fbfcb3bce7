import EoJava.Diagnostic.Basic
import EoJava.Proofs.Grammar.Legible
import EoJava.Proofs.Text.Lines

/-!
# Messages on one line

Numbers are written as unbroken texts, and so are the templates of the catalog. So the message and
the suggestion of a diagnostic are unbroken if its arguments are (`Diagnostic.unbroken_make`).
-/

namespace EoJava

/-! ## Texts -/

namespace Text

/-- Texts without line feeds are joined into one without. -/
theorem unbroken_join {texts : List String} (h : ∀ text ∈ texts, Unbroken text.toList) :
    Unbroken (String.join texts).toList := by
  simpa [Unbroken, String.toList_join] using h

/-- A character that takes one unit and is no line feed. -/
def IsNarrow (c : Char) : Prop :=
  units c = 1 ∧ c ≠ '\n'

instance (c : Char) : Decidable (IsNarrow c) :=
  inferInstanceAs (Decidable (_ ∧ _))

/-- All characters of a text are narrow. -/
def Narrow (text : List Char) : Prop :=
  ∀ c ∈ text, IsNarrow c

instance (text : List Char) : Decidable (Narrow text) :=
  List.decidableBAll _ text

namespace Narrow

variable {text more : List Char}

/-- Two narrow texts make a narrow text. -/
theorem append (h : Narrow text) (hmore : Narrow more) : Narrow (text ++ more) :=
  List.forall_mem_append.2 ⟨h, hmore⟩

/-- A text of characters of a narrow one is narrow. -/
theorem of_subset (h : Narrow text) (hsub : more ⊆ text) : Narrow more :=
  fun c hc => h c (hsub hc)

/-- A narrow text holds no line feed. -/
theorem unbroken (h : Narrow text) : Unbroken text :=
  fun hmem => (h _ hmem).2 rfl

/-- The width of a text of narrow characters is their number. -/
theorem width (h : Narrow text) : Text.width text = text.length := by
  induction text with
  | nil => rfl
  | cons c cs ih =>
      obtain ⟨hc, hcs⟩ := List.forall_mem_cons.1 h
      rw [width_cons, hc.1, ih hcs, List.length_cons, Nat.add_comm]

end Narrow

/-- Filling with a narrow character gives a narrow text. -/
theorem narrow_replicate {c : Char} (hc : IsNarrow c) (n : Nat) : Narrow (List.replicate n c) :=
  fun _ hmem => List.eq_of_mem_replicate hmem ▸ hc

/-- Digits are narrow. -/
theorem isNarrow_of_isDigit {c : Char} (h : c.isDigit) : IsNarrow c := by
  have hbounds := Grammar.isDigit_iff.1 h
  constructor
  · rw [units, if_pos (by omega)]
  · rintro rfl
    exact absurd hbounds.1 (by decide)

end Text

open Text (Unbroken Narrow narrow_replicate unbroken_append)

/-! ## Numbers -/

/-- A natural number is written in digits. -/
theorem narrow_toString (n : Nat) : Narrow (toString n).toList := by
  intro c hc
  have hmem : c ∈ Nat.toDigits 10 n := Nat.toList_repr ▸ hc
  exact Text.isNarrow_of_isDigit (Nat.isDigit_of_mem_toDigits (by decide) (by decide) hmem)

/-- Digits with a point before them, unless there are none. -/
theorem narrow_fraction {digits : List Char} (h : Narrow digits) :
    Narrow (if digits = [] then "" else "." ++ String.ofList digits).toList := by
  split
  · decide
  · rw [String.toList_append, String.toList_ofList (l := digits)]
    exact .append (by decide) h

/-- A decimal is written in digits, a point, and at most one power with its sign. -/
theorem Decimal.narrow_display (d : Decimal) : Narrow d.display.toList := by
  have hdigits := narrow_toString d.digits
  have htake (n : Nat) := hdigits.of_subset (List.take_subset n _)
  have hdrop (n : Nat) := hdigits.of_subset (List.drop_subset n _)
  have hzeros (n : Nat) := narrow_replicate (c := '0') (by decide) n
  rw [display]
  split
  · simp only [positional, String.toList_append]
    refine .append ?_ (narrow_fraction ((hzeros _).append (hdrop _)))
    split
    · decide
    · rw [String.toList_ofList]
      exact (htake _).append (hzeros _)
  · simp only [scientific, String.toList_append, String.toList_ofList]
    refine .append (.append (.append (.append (htake 1) (narrow_fraction (hdrop 1))) (by decide)) ?_)
      (narrow_toString _)
    split <;> decide

/-- A binary number is written as a sign and the decimal that stands for it. -/
theorem Binary64.narrow_display (number : Binary64) : Narrow number.display.toList := by
  have hsign : Narrow (if number.negative then "-" else "").toList := by
    split <;> decide
  simp only [display]
  split
  · rw [String.toList_append]
    exact hsign.append (by decide)
  · next d _ =>
      split
      · decide
      · rw [String.toList_append]
        exact hsign.append d.narrow_display

/-- A whole number is written narrow, whether with all its digits or not. -/
theorem Whole.narrow_display (n : Int) : Narrow (display n).toList := by
  rw [display]
  split
  · cases n with
    | ofNat n => exact narrow_toString n
    | negSucc n =>
        show Narrow ("-" ++ toString (n + 1)).toList
        rw [String.toList_append]
        exact .append (by decide) (narrow_toString (n + 1))
  · exact Binary64.narrow_display _

@[simp]
theorem Whole.unbroken_display (n : Int) : Unbroken (display n).toList :=
  (narrow_display n).unbroken

/-! ## Templates -/

/-- What a piece of a template is written with holds no line feed. -/
def Piece.Unbroken : Piece → Prop
  | .text written | .hole written => Text.Unbroken written.toList

instance (piece : Piece) : Decidable piece.Unbroken :=
  match piece with
  | .text written | .hole written => inferInstanceAs (Decidable (Text.Unbroken written.toList))

/-- What the arguments of a message are shown as holds no line feed. -/
def Arguments.Unbroken (arguments : Arguments) : Prop :=
  ∀ argument ∈ arguments, Text.Unbroken argument.2.display.toList

namespace Arguments

@[simp]
theorem unbroken_nil : Arguments.Unbroken [] :=
  List.forall_mem_nil _

@[simp]
theorem unbroken_cons {name : String} {value : Scalar} {arguments : Arguments} :
    Arguments.Unbroken ((name, value) :: arguments) ↔
      Text.Unbroken value.display.toList ∧ Arguments.Unbroken arguments :=
  List.forall_mem_cons

/-- What is inherited holds no line feed either. -/
theorem unbroken_inherited : ∀ entry ∈ inherited, Text.Unbroken entry.2.toList := by
  decide +kernel

/-- So nothing that is found under a name holds one. -/
theorem Unbroken.of_text? {arguments : Arguments} (h : arguments.Unbroken) {name text : String}
    (htext : arguments.text? name = some text) : Text.Unbroken text.toList := by
  rw [text?, Option.or_eq_some_iff] at htext
  obtain hown | ⟨-, hinherited⟩ := htext
  · obtain ⟨value, hvalue, rfl⟩ := Option.map_eq_some_iff.1 hown
    obtain ⟨first, later, rfl, -⟩ := List.lookup_eq_some_iff.1 hvalue
    exact h (name, value) (by simp)
  · obtain ⟨first, later, hsplit, -⟩ := List.lookup_eq_some_iff.1 hinherited
    exact unbroken_inherited (name, text) (by simp [hsplit])

end Arguments

/-- A hole is filled with what is found under its name, or written as it is. -/
theorem Template.unbroken_fill {arguments : Arguments} (harguments : Arguments.Unbroken arguments)
    {template : Template} (h : ∀ piece ∈ template, piece.Unbroken) :
    Unbroken (template.fill arguments).toList := by
  refine Text.unbroken_join (List.forall_mem_map.2 fun piece hpiece => ?_)
  have hwritten := h piece hpiece
  cases piece with
  | text written => exact hwritten
  | hole name =>
      rw [fillPiece]
      cases htext : arguments.text? name with
      | some text => exact harguments.of_text? htext
      | none =>
          simp only [Option.getD_none, Piece.source, String.toList_append, unbroken_append]
          exact ⟨⟨by decide, hwritten⟩, by decide⟩

/-- The catalog is written without line feeds. -/
theorem Code.unbroken_entry (code : Code) :
    ∀ piece ∈ code.entry.message ++ code.entry.suggestion, piece.Unbroken := by
  cases code <;> decide +kernel

/-! ## Problems and diagnostics -/

/-- What a problem tells holds no line feed. -/
def Problem.Unbroken (problem : Problem) : Prop :=
  Arguments.Unbroken (problem.arguments.getD [])

instance (problem : Problem) : Decidable problem.Unbroken :=
  List.decidableBAll _ (problem.arguments.getD [])

namespace Problem

/-- The first unit of a character is a line feed only if the character is. -/
theorem feed_ne_firstUnit {c : Char} (h : '\n' ≠ c) : '\n' ≠ Text.firstUnit c := by
  rw [Text.firstUnit]
  split
  · exact h
  · decide

/-- An escape that is not known is told by its character, which stands on one line. -/
theorem unbroken_unknownEscape {c : Char} (h : '\n' ≠ c) : (unknownEscape c).Unbroken := by
  simpa [Problem.Unbroken, arguments, Scalar.display] using feed_ne_firstUnit h

theorem unbroken_unknownCharacter {c : Char} (h : '\n' ≠ c) : (unknownCharacter c).Unbroken := by
  simpa [Problem.Unbroken, arguments, Scalar.display] using feed_ne_firstUnit h

/-- Styles of indentation have names without line feeds. -/
theorem unbroken_mixedIndentation (style : Text.IndentStyle) :
    (mixedIndentation style).Unbroken := by
  cases style <;> decide +kernel

theorem unbroken_inconsistentIndentation (expected found : Text.IndentStyle) :
    (inconsistentIndentation expected found).Unbroken := by
  cases expected <;> cases found <;> decide +kernel

/-- The levels that an unindent may go back to are listed on one line. -/
theorem unbroken_unmatchedUnindent (width : Nat) (levels : List Nat) :
    (unmatchedUnindent width levels).Unbroken := by
  have hlevels : Text.Unbroken (", ".intercalate (levels.map toString)).toList :=
    Text.unbroken_intercalate (by decide)
      (List.forall_mem_map.2 fun level _ => (narrow_toString level).unbroken)
  simpa [Problem.Unbroken, arguments, Scalar.display] using hlevels

end Problem

/-- What a diagnostic says holds no line feed. -/
structure Diagnostic.Unbroken (d : Diagnostic) : Prop where
  message : Text.Unbroken d.message.toList
  suggestion : Text.Unbroken d.suggestion.toList

/-- A diagnostic is told on one line if the facts of its problem are. -/
theorem Diagnostic.unbroken_make {problem : Problem} (h : problem.Unbroken) (position : Position)
    (token : Option Nat) : (make problem.code position problem.arguments token).Unbroken := by
  obtain ⟨hmessage, hsuggestion⟩ := List.forall_mem_append.1 problem.code.unbroken_entry
  exact ⟨Template.unbroken_fill h hmessage, Template.unbroken_fill h hsuggestion⟩

end EoJava
