import EoJava.Compilation.Stages
import EoJava.Proofs.Java.Digits
import EoJava.Proofs.Token.Scanning
import Mathlib.Algebra.Group.Int.Defs
import Mathlib.Algebra.Group.Nat.Defs

/-!
# Integer literals

How Java reads an integer literal, `IntegerLiteral.value?`, and what becomes of the whole numbers of
a source. They are written with the digits that they have there. So a number keeps its value if no
zero leads its digits, or if it is less than eight, and only then (`renderExpression_integer`).
-/

namespace EoJava.Java

namespace IntegerLiteral

/-- A digit of an octal literal. -/
def isOctal (c : Char) : Bool :=
  c.isDigit && decide (digitValue c < 8)

/-- The number that digits denote in a literal of some bits, given whether a minus sign stands
before it. A zero before other digits makes them octal, and all bits may then be used. In decimal
the number is less than half of all, or just half of them after a minus sign. -/
def magnitude? (bits : Nat) (negated : Bool) : List Char → Option Int
  | '0' :: d :: ds =>
    if (d :: ds).all isOctal ∧ digitsFrom 8 0 (d :: ds) < 2 ^ bits then
      some (Int.bmod (digitsFrom 8 0 (d :: ds)) (2 ^ bits))
    else none
  | digits =>
    if digits ≠ [] ∧ digits.all Char.isDigit ∧ (digitsFrom 10 0 digits < 2 ^ (bits - 1) ∨
        negated ∧ digitsFrom 10 0 digits = 2 ^ (bits - 1)) then
      some (digitsFrom 10 0 digits)
    else none

/-- The number that a literal of some bits denotes, with or without a minus sign before it. -/
def signed? (bits : Nat) : List Char → Option Int
  | '-' :: digits => (magnitude? bits true digits).map fun value => Int.bmod (-value) (2 ^ bits)
  | digits => magnitude? bits false digits

/-- The number that an integer literal denotes, if it is one. The suffix makes it a `long`. -/
def value? (text : List Char) : Option Int :=
  if text.getLast? = some 'L' then signed? 64 text.dropLast else signed? 32 text

variable {k : Nat} {digits : List Char}

/-- A zero stands before the other digits of a number. -/
def zeroLed : List Char → Bool
  | '-' :: '0' :: _ :: _ => true
  | '0' :: _ :: _ => true
  | _ => false

/-- A number that some bits hold is not wrapped by them. -/
theorem bmod_of_fits {n : Int} (hlow : -2 ^ k ≤ n) (hhigh : n < 2 ^ k) :
    n.bmod (2 ^ (k + 1)) = n := by
  refine Int.bmod_eq_of_le_mul_two ?_ ?_
  · rw [Nat.pow_succ]
    push_cast
    omega
  · rw [Nat.pow_succ]
    push_cast
    omega

/-- Digits that no zero leads denote their decimal number. -/
theorem magnitude?_decimal (hdigits : Text.Numeral.IsDigits digits) (hzero : zeroLed digits = false)
    {negated : Bool}
    (hfits : digitsFrom 10 0 digits < 2 ^ k ∨ negated ∧ digitsFrom 10 0 digits = 2 ^ k) :
    magnitude? (k + 1) negated digits = some (digitsFrom 10 0 digits : Int) := by
  obtain ⟨hne, hall⟩ := hdigits
  unfold magnitude?
  split
  · cases hzero
  · exact if_pos ⟨hne, List.all_eq_true.2 hall, hfits⟩

/-- Octal digits denote the number that the octal base gives, unless it is too large. -/
theorem magnitude?_zero {d : Char} {ds : List Char} (hoctal : (d :: ds).all isOctal)
    (hfits : digitsFrom 8 0 (d :: ds) < 2 ^ k) (negated : Bool) :
    magnitude? (k + 1) negated ('0' :: d :: ds) = some (digitsFrom 8 0 (d :: ds) : Int) := by
  have hbits : digitsFrom 8 0 (d :: ds) < 2 ^ (k + 1) := by
    rw [Nat.pow_succ]
    omega
  have hpower : (digitsFrom 8 0 (d :: ds) : Int) < 2 ^ k := by exact_mod_cast hfits
  have hlow : -2 ^ k ≤ (digitsFrom 8 0 (d :: ds) : Int) := by
    have hpos : (0 : Int) < 2 ^ k := Int.pow_pos (by decide)
    omega
  rw [magnitude?, if_pos ⟨hoctal, hbits⟩, bmod_of_fits hlow hpower]

/-- A digit that is not octal makes a number at least eight. -/
theorem le_of_not_isOctal (value : Nat) {cs : List Char} (hdigits : ∀ c ∈ cs, c.isDigit)
    (hoctal : cs.all isOctal = false) : 8 ≤ digitsFrom 10 value cs := by
  obtain ⟨c, hc, hnot⟩ := List.all_eq_false.1 hoctal
  have hdigit : c.isDigit := hdigits c hc
  have hvalue : 8 ≤ digitValue c := by simpa [isOctal, hdigit] using hnot
  exact hvalue.trans (digitValue_le value hc)

/-- Digits that a zero leads denote their decimal number if it is less than eight. Otherwise they
denote a lesser number or none. -/
theorem magnitude?_octal (hdigits : Text.Numeral.IsDigits digits) (hzero : zeroLed digits)
    (hk : 3 ≤ k) (hfits : digitsFrom 10 0 digits ≤ 2 ^ k) (negated : Bool) :
    (digitsFrom 10 0 digits < 8 ∧
        magnitude? (k + 1) negated digits = some (digitsFrom 10 0 digits : Int)) ∨
      8 ≤ digitsFrom 10 0 digits ∧ ∀ value, magnitude? (k + 1) negated digits = some value →
        0 ≤ value ∧ value < digitsFrom 10 0 digits := by
  unfold zeroLed at hzero
  split at hzero
  · exact absurd (hdigits.2 '-' (by simp)) (by decide)
  · next d ds =>
      have hsame : digitsFrom 10 0 ('0' :: d :: ds) = digitsFrom 10 0 (d :: ds) :=
        digitsFrom_cons 10 0 '0' (d :: ds)
      rw [hsame] at hfits ⊢
      cases hoctal : (d :: ds).all isOctal with
      | true =>
          have hless : ∀ c ∈ d :: ds, digitValue c < 8 := by
            intro c hc
            have h := List.all_eq_true.1 hoctal c hc
            simp only [isOctal, Bool.and_eq_true, decide_eq_true_eq] at h
            exact h.2
          have hle := octal_le_decimal (Nat.le_refl 0) (d :: ds)
          have hiff := octal_eq_decimal_iff hless
          have height : 2 ^ 3 ≤ 2 ^ k := Nat.pow_le_pow_right (by omega) hk
          by_cases hsmall : digitsFrom 10 0 (d :: ds) < 8
          · have heq := hiff.2 hsmall
            rw [magnitude?_zero hoctal (by omega), heq]
            exact .inl ⟨hsmall, rfl⟩
          · have hne : digitsFrom 8 0 (d :: ds) ≠ digitsFrom 10 0 (d :: ds) :=
              fun heq => hsmall (hiff.1 heq)
            rw [magnitude?_zero hoctal (by omega)]
            refine .inr ⟨by omega, fun value hvalue => ?_⟩
            obtain rfl := Option.some.inj hvalue
            omega
      | false =>
          have hnone : magnitude? (k + 1) negated ('0' :: d :: ds) = none := by
            rw [magnitude?, if_neg (fun h => Bool.false_ne_true (hoctal.symm.trans h.1))]
          have hlarge := le_of_not_isOctal 0
            (fun c hc => hdigits.2 c (List.mem_cons_of_mem _ hc)) hoctal
          refine .inr ⟨hlarge, fun value h => ?_⟩
          rw [hnone] at h
          cases h
  · cases hzero

/-- Without a sign a number keeps its value unless a zero leads it and it is at least eight. -/
theorem signed?_iff (hdigits : Text.Numeral.IsDigits digits) (hk : 3 ≤ k)
    (hfits : digitsFrom 10 0 digits < 2 ^ k) :
    signed? (k + 1) digits = some (digitsFrom 10 0 digits : Int) ↔
      zeroLed digits = false ∨ digitsFrom 10 0 digits < 8 := by
  have hsigned : signed? (k + 1) digits = magnitude? (k + 1) false digits := by
    unfold signed?
    split
    · exact absurd (hdigits.2 '-' (by simp)) (by decide)
    · rfl
  rw [hsigned]
  cases hzero : zeroLed digits with
  | false => simp [magnitude?_decimal hdigits hzero (.inl hfits)]
  | true =>
      obtain ⟨hsmall, hvalue⟩ | ⟨hlarge, hvalue⟩ :=
        magnitude?_octal hdigits hzero hk (Nat.le_of_lt hfits) false
      · simp [hsmall, hvalue]
      · refine ⟨fun h => ?_, fun h => ?_⟩
        · have hlt := (hvalue _ h).2
          omega
        · simp only [Bool.true_eq_false, false_or] at h
          omega

/-- With a minus sign a number keeps its value under the same condition. -/
theorem signed?_neg_iff (hdigits : Text.Numeral.IsDigits digits) (hk : 3 ≤ k)
    (hfits : digitsFrom 10 0 digits ≤ 2 ^ k) :
    signed? (k + 1) ('-' :: digits) = some (-(digitsFrom 10 0 digits : Int)) ↔
      zeroLed digits = false ∨ digitsFrom 10 0 digits < 8 := by
  have hpower : (digitsFrom 10 0 digits : Int) ≤ 2 ^ k := by exact_mod_cast hfits
  have hnegate : ∀ value : Int, 0 ≤ value → value ≤ 2 ^ k →
      Int.bmod (-value) (2 ^ (k + 1)) = -value := by
    intro value hlow hhigh
    have hpos : (0 : Int) < 2 ^ k := Int.pow_pos (by decide)
    exact bmod_of_fits (by omega) (by omega)
  have hself := hnegate (digitsFrom 10 0 digits) (Int.natCast_nonneg _) hpower
  rw [signed?]
  cases hzero : zeroLed digits with
  | false =>
      have hfits' : digitsFrom 10 0 digits < 2 ^ k ∨ true ∧ digitsFrom 10 0 digits = 2 ^ k := by
        simpa using Nat.lt_or_eq_of_le hfits
      simp [magnitude?_decimal hdigits hzero hfits', hself]
  | true =>
      obtain ⟨hsmall, hvalue⟩ | ⟨hlarge, hvalue⟩ := magnitude?_octal hdigits hzero hk hfits true
      · simp [hsmall, hvalue, hself]
      · refine ⟨fun h => ?_, fun h => ?_⟩
        · obtain ⟨value, hread, heq⟩ := Option.map_eq_some_iff.1 h
          obtain ⟨hlow, hlt⟩ := hvalue value hread
          rw [hnegate value hlow (by omega)] at heq
          omega
        · simp only [Bool.true_eq_false, false_or] at h
          omega

/-- A minus sign does not count before digits. -/
theorem zeroLed_neg (hdigits : Text.Numeral.IsDigits digits) :
    zeroLed ('-' :: digits) = zeroLed digits := by
  obtain ⟨hne, hall⟩ := hdigits
  obtain ⟨c, cs, rfl⟩ := List.exists_cons_of_ne_nil hne
  have hminus : c ≠ '-' := by
    rintro rfl
    exact absurd (hall '-' (by simp)) (by decide)
  unfold zeroLed
  split <;> split <;> simp_all

/-- A whole number is digits with or without a minus sign. -/
theorem exists_digits {text : List Char} (hnumeral : Text.Numeral.isNumeral text)
    (hwhole : '.' ∉ text) : ∃ digits, Text.Numeral.IsDigits digits ∧
      (text = digits ∧ Text.Numeral.intValue text = digitsFrom 10 0 digits ∨
        text = '-' :: digits ∧ Text.Numeral.intValue text = -(digitsFrom 10 0 digits : Int)) := by
  obtain ⟨_, digits, fraction, rfl, hsign, hdigits, hfraction⟩ :=
    Text.Numeral.isNumeral_iff.1 hnumeral
  obtain rfl : fraction = [] := by
    rcases hfraction with h | ⟨_, rfl, -⟩
    · exact h
    · simp at hwhole
  refine ⟨digits, hdigits, ?_⟩
  rw [List.append_nil]
  rcases hsign with rfl | rfl
  · left
    refine ⟨rfl, ?_⟩
    unfold Text.Numeral.intValue
    split
    · next heq =>
        exact absurd (hdigits.2 '-' (by rw [← List.nil_append digits, heq]; simp)) (by decide)
    · rfl
  · exact .inr ⟨rfl, rfl⟩

/-- A whole number that some bits hold is read back from the digits of a source unless a zero leads
them and it is at least eight. -/
theorem signed?_eq_iff {text : List Char} (hnumeral : Text.Numeral.isNumeral text)
    (hwhole : '.' ∉ text) (hk : 3 ≤ k) (hlow : -2 ^ k ≤ Text.Numeral.intValue text)
    (hhigh : Text.Numeral.intValue text < 2 ^ k) :
    signed? (k + 1) text = some (Text.Numeral.intValue text) ↔
      zeroLed text = false ∨ (Text.Numeral.intValue text).natAbs < 8 := by
  obtain ⟨digits, hdigits, ⟨rfl, hvalue⟩ | ⟨rfl, hvalue⟩⟩ := exists_digits hnumeral hwhole
  · rw [hvalue] at hhigh ⊢
    rw [Int.natAbs_natCast]
    exact signed?_iff hdigits hk (by exact_mod_cast hhigh)
  · rw [hvalue] at hlow ⊢
    rw [Int.natAbs_neg, Int.natAbs_natCast, zeroLed_neg hdigits]
    exact signed?_neg_iff hdigits hk (by exact_mod_cast Int.neg_le_neg_iff.1 hlow)

/-- A whole number has no suffix. -/
theorem getLast?_ne {text : List Char} (hnumeral : Text.Numeral.isNumeral text)
    (hwhole : '.' ∉ text) : text.getLast? ≠ some 'L' := by
  intro hlast
  have hmem := List.mem_of_getLast? hlast
  obtain ⟨digits, hdigits, ⟨rfl, -⟩ | ⟨rfl, -⟩⟩ := exists_digits hnumeral hwhole
  · exact absurd (hdigits.2 'L' hmem) (by decide)
  · rcases List.mem_cons.1 hmem with heq | hmem
    · exact absurd heq (by decide)
    · exact absurd (hdigits.2 'L' hmem) (by decide)

end IntegerLiteral

theorem intRange_eq : intRange = (-2 ^ 31, 2 ^ 31 - 1) := rfl

theorem longRange_eq : longRange = (-2 ^ 63, 2 ^ 63 - 1) := rfl

theorem inRange_iff (range : Int × Int) (n : Int) :
    inRange range n ↔ range.1 ≤ n ∧ n ≤ range.2 := by
  rw [inRange, Bool.and_eq_true, decide_eq_true_iff, decide_eq_true_iff]

/-- A whole number is written as it stands, with a suffix if no `int` holds it. -/
theorem numberLiteral?_whole {text : String} (hnumeral : Text.Numeral.isNumeral text.toList)
    (hwhole : '.' ∉ text.toList) :
    numberLiteral? text =
      if inRange intRange (Text.Numeral.intValue text.toList) then some text
      else if inRange longRange (Text.Numeral.intValue text.toList) then some (text ++ "L")
      else none := by
  have hcontains : text.toList.contains '.' = false := by simpa using hwhole
  simp only [numberLiteral?, hnumeral, hcontains, Bool.not_true, Bool.false_eq_true, ↓reduceIte]

/-- The literal of a whole number denotes it unless a zero leads its digits and it is at least
eight. There is a literal if a `long` holds the number. -/
theorem numberLiteral?_cases {text : String} (hnumeral : Text.Numeral.isNumeral text.toList)
    (hwhole : '.' ∉ text.toList) :
    (∃ literal, numberLiteral? text = some literal ∧
        inRange longRange (Text.Numeral.intValue text.toList) ∧
        (IntegerLiteral.value? literal.toList = some (Text.Numeral.intValue text.toList) ↔
          IntegerLiteral.zeroLed text.toList = false ∨
            (Text.Numeral.intValue text.toList).natAbs < 8)) ∨
      numberLiteral? text = none ∧
        inRange longRange (Text.Numeral.intValue text.toList) = false := by
  rw [numberLiteral?_whole hnumeral hwhole]
  by_cases hint : inRange intRange (Text.Numeral.intValue text.toList)
  · obtain ⟨hlow, hhigh⟩ := (inRange_iff _ _).1 hint
    simp only [intRange_eq] at hlow hhigh
    refine .inl ⟨text, if_pos hint, (inRange_iff _ _).2 ⟨?_, ?_⟩, ?_⟩
    · simp only [longRange_eq]
      omega
    · simp only [longRange_eq]
      omega
    · rw [IntegerLiteral.value?, if_neg (IntegerLiteral.getLast?_ne hnumeral hwhole)]
      exact IntegerLiteral.signed?_eq_iff hnumeral hwhole (by decide) hlow (by omega)
  · rw [if_neg hint]
    by_cases hlong : inRange longRange (Text.Numeral.intValue text.toList)
    · obtain ⟨hlow, hhigh⟩ := (inRange_iff _ _).1 hlong
      simp only [longRange_eq] at hlow hhigh
      refine .inl ⟨text ++ "L", if_pos hlong, hlong, ?_⟩
      have htext : (text ++ "L").toList = text.toList ++ ['L'] := String.toList_append
      rw [htext, IntegerLiteral.value?, List.getLast?_concat, if_pos rfl, List.dropLast_concat]
      exact IntegerLiteral.signed?_eq_iff hnumeral hwhole (by decide) hlow (by omega)
    · exact .inr ⟨if_neg hlong, Bool.eq_false_iff.2 hlong⟩

end EoJava.Java

namespace EoJava.Compilation

open Java (inRange longRange)
open Text.Numeral (intValue)

/-- A whole number of a source that a `long` holds becomes a literal, and nothing is reported. The
literal denotes the number exactly if no zero leads its digits or it is less than eight. Any other
whole number becomes none, and is reported where it stands. -/
theorem renderExpression_integer {source : List Char} {found : Located Lexeme} {text : String}
    (hmet : found ∈ (Scan.source source).lexemes) (hnumber : found.value = .number text)
    (hwhole : '.' ∉ text.toList) (c : Compilation) (scope : Java.Scope) (position : Position) :
    (∃ literal, c.renderExpression scope (.literal position (.number text)) =
          (some literal, .literal position (.number text), c) ∧
        inRange longRange (intValue text.toList) ∧
        (Java.IntegerLiteral.value? literal.toList = some (intValue text.toList) ↔
          Java.IntegerLiteral.zeroLed text.toList = false ∨ (intValue text.toList).natAbs < 8)) ∨
      c.renderExpression scope (.literal position (.number text)) =
          (none, .literal position (.number text),
            c.reportAt .malformedNumber position (some [("text", .text text)])) ∧
        inRange longRange (intValue text.toList) = false := by
  have hnumeral := Scan.isNumeral_of_met hmet hnumber
  obtain ⟨literal, hliteral, hlong, hvalue⟩ | ⟨hnone, hlong⟩ :=
    Java.numberLiteral?_cases hnumeral hwhole
  · refine .inl ⟨literal, ?_, hlong, hvalue⟩
    simp only [renderExpression, Java.expressionText, Java.literalText?, hliteral]
    rfl
  · refine .inr ⟨?_, hlong⟩
    simp only [renderExpression, Java.expressionText, Java.literalText?, hnone]
    rfl

/-- A negative number without a leading zero keeps its value. -/
theorem renderExpression_integer_negative :
    ∃ literal, (({ source := "-7" } : Compilation).renderExpression {}
        (.literal ⟨1, 1⟩ (.number "-7"))).1 = some literal ∧
      Java.IntegerLiteral.value? literal.toList = some (-7) := by
  have hmet : (⟨⟨1, 1⟩, .number "-7"⟩ : Located Lexeme) ∈ (Scan.source "-7".toList).lexemes := by
    decide +kernel
  obtain ⟨literal, hrender, -, hvalue⟩ | ⟨-, hlong⟩ :=
    renderExpression_integer hmet rfl (by decide) { source := "-7" } {} ⟨1, 1⟩
  · exact ⟨literal, by rw [hrender], hvalue.2 (.inl (by decide))⟩
  · exact absurd hlong (by decide)

/-- A number that a zero leads becomes an octal literal, which denotes another number. -/
theorem renderExpression_octal :
    (⟨⟨1, 1⟩, .number "010"⟩ : Located Lexeme) ∈ (Scan.source "010".toList).lexemes ∧
      intValue "010".toList = 10 ∧
      (({ source := "010" } : Compilation).renderExpression {}
        (.literal ⟨1, 1⟩ (.number "010"))).1 = some "010" ∧
      Java.IntegerLiteral.value? "010".toList = some 8 := by
  decide +kernel

end EoJava.Compilation
