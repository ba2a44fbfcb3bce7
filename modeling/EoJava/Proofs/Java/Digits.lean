import EoJava.Proofs.Text.Numeral

/-!
# Digits in two bases

The number that a run of digits denotes in a base. Octal digits denote less than the same digits in
decimal, unless the number is a single digit (`octal_eq_decimal_iff`).
-/

namespace EoJava.Java

/-- The number that a digit denotes. -/
def digitValue (c : Char) : Nat :=
  c.toNat - '0'.toNat

/-- The number that digits denote in a base after a number that was read before them. -/
def digitsFrom (base value : Nat) (digits : List Char) : Nat :=
  digits.foldl (fun value c => value * base + digitValue c) value

theorem digitsFrom_nil (base value : Nat) : digitsFrom base value [] = value := by
  rw [digitsFrom, List.foldl_nil]

theorem digitsFrom_cons (base value : Nat) (c : Char) (cs : List Char) :
    digitsFrom base value (c :: cs) = digitsFrom base (value * base + digitValue c) cs := by
  rw [digitsFrom, List.foldl_cons, digitsFrom]

/-- Digits after a number do not make it less. -/
theorem le_digitsFrom (value : Nat) (digits : List Char) : value ≤ digitsFrom 10 value digits := by
  induction digits generalizing value with
  | nil => exact (digitsFrom_nil 10 value).ge
  | cons c cs ih =>
      have hle := ih (value * 10 + digitValue c)
      rw [digitsFrom_cons]
      omega

/-- A digit denotes no more than the number that it stands in. -/
theorem digitValue_le (value : Nat) {digits : List Char} {c : Char} (hc : c ∈ digits) :
    digitValue c ≤ digitsFrom 10 value digits := by
  induction digits generalizing value with
  | nil => cases hc
  | cons d ds ih =>
      rcases List.mem_cons.1 hc with rfl | hc
      · have hle := le_digitsFrom (value * 10 + digitValue c) ds
        rw [digitsFrom_cons]
        omega
      · exact ih _ hc

/-- A lesser number stays less in the lesser base. -/
theorem octal_lt_decimal {value other : Nat} (h : value < other) (digits : List Char) :
    digitsFrom 8 value digits < digitsFrom 10 other digits := by
  induction digits generalizing value other with
  | nil => rwa [digitsFrom_nil, digitsFrom_nil]
  | cons c cs ih =>
      rw [digitsFrom_cons, digitsFrom_cons]
      have hlt : value * 8 + digitValue c < other * 10 + digitValue c := by omega
      exact ih hlt

theorem octal_le_decimal {value other : Nat} (h : value ≤ other) (digits : List Char) :
    digitsFrom 8 value digits ≤ digitsFrom 10 other digits := by
  induction digits generalizing value other with
  | nil => rwa [digitsFrom_nil, digitsFrom_nil]
  | cons c cs ih =>
      rw [digitsFrom_cons, digitsFrom_cons]
      have hle : value * 8 + digitValue c ≤ other * 10 + digitValue c := by omega
      exact ih hle

/-- Octal digits denote the same number in both bases if it is a single digit. -/
theorem octal_eq_decimal_iff {digits : List Char} (hdigits : ∀ c ∈ digits, digitValue c < 8) :
    digitsFrom 8 0 digits = digitsFrom 10 0 digits ↔ digitsFrom 10 0 digits < 8 := by
  induction digits with
  | nil => simp [digitsFrom_nil]
  | cons c cs ih =>
      obtain ⟨hc, hcs⟩ := List.forall_mem_cons.1 hdigits
      rw [digitsFrom_cons, digitsFrom_cons]
      rcases Nat.eq_zero_or_pos (digitValue c) with hzero | hpos
      · rw [hzero]
        exact ih hcs
      · cases cs with
        | nil => simpa [digitsFrom_nil] using hc
        | cons d ds =>
            -- After a digit that is not zero every further one makes the decimal number greater.
            rw [digitsFrom_cons, digitsFrom_cons]
            have hlt : (0 * 8 + digitValue c) * 8 + digitValue d <
                (0 * 10 + digitValue c) * 10 + digitValue d := by omega
            have hless := octal_lt_decimal hlt ds
            have hle := le_digitsFrom ((0 * 10 + digitValue c) * 10 + digitValue d) ds
            omega

end EoJava.Java
