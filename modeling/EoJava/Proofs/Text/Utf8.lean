import EoJava.Proofs.Text.Lines
import EoJava.Text.Utf8

/-!
# Texts as bytes

A character is a lead byte and up to three tail bytes, each within the bounds that the bytes before
it leave. Reading these bytes gives the character, whatever follows (`decodeFrom_character`). So a
text is read back from its bytes (`decode_encode`), and if it does not start with a byte order mark,
that is so with and without the bytes of a mark before them (`decodeText_encode`,
`decodeText_mark`).
-/

namespace EoJava.Text.Utf8

/-! ## Bytes -/

section

variable {a b owed low high value : Nat}

/-- A lead byte leaves its character pending. -/
theorem decodeFrom_lead {pending : Pending} (ha : a < 256) (h : first a = ([], some pending))
    (bytes : List UInt8) :
    decodeFrom none (UInt8.ofNat a :: bytes) = decodeFrom (some pending) bytes := by
  rw [decodeFrom, UInt8.toNat_ofNat_of_lt' ha, h]
  rfl

/-- A tail byte that is not the last one adds its bits to the pending character. -/
theorem decodeFrom_tail (hb : b < 64) (hlow : low ≤ b + 0x80) (hhigh : b + 0x80 ≤ high)
    (bytes : List UInt8) :
    decodeFrom (some ⟨owed + 2, low, high, value⟩) (UInt8.ofNat (b + 0x80) :: bytes) =
      decodeFrom (some ⟨owed + 1, 0x80, 0xBF, value * 64 + b⟩) bytes := by
  have htail : tail ⟨owed + 2, low, high, value⟩ (b + 0x80) =
      ([], some ⟨owed + 1, 0x80, 0xBF, value * 64 + b⟩) := by
    simp [tail, hlow, hhigh]
  rw [decodeFrom, UInt8.toNat_ofNat_of_lt' (show _ < 256 by omega), htail]
  rfl

/-- The last tail byte completes the pending character. -/
theorem decodeFrom_last (hb : b < 64) (hlow : low ≤ b + 0x80) (hhigh : b + 0x80 ≤ high)
    (bytes : List UInt8) :
    decodeFrom (some ⟨1, low, high, value⟩) (UInt8.ofNat (b + 0x80) :: bytes) =
      Char.ofNat (value * 64 + b) :: decodeFrom none bytes := by
  have htail : tail ⟨1, low, high, value⟩ (b + 0x80) = ([Char.ofNat (value * 64 + b)], none) := by
    simp [tail, hlow, hhigh]
  rw [decodeFrom, UInt8.toNat_ofNat_of_lt' (show _ < 256 by omega), htail]
  rfl

/-- The lead byte of a character of two bytes. -/
theorem first_two (hlow : 2 ≤ a) (hhigh : a < 32) :
    first (a + 0xC0) = ([], some ⟨1, 0x80, 0xBF, a⟩) := by
  rw [first, if_neg (by omega), if_pos (by omega), Nat.add_sub_cancel]

/-- The lead byte of a character of three bytes bounds the next one. Overlong forms and surrogates
are out of bounds. -/
theorem first_three (ha : a < 16) (hb : b < 64) (hoverlong : a = 0 → 0x20 ≤ b)
    (hsurrogate : a = 0xD → b < 0x20) : ∃ low high,
    first (a + 0xE0) = ([], some ⟨2, low, high, a⟩) ∧ low ≤ b + 0x80 ∧ b + 0x80 ≤ high := by
  rw [first, if_neg (by omega), if_neg (by omega)]
  split
  · next hzero =>
      obtain rfl : a = 0 := by omega
      exact ⟨0xA0, 0xBF, rfl, by omega, by omega⟩
  · split
    · next hlast =>
        obtain rfl : a = 0xD := by omega
        exact ⟨0x80, 0x9F, rfl, by omega, by omega⟩
    · rw [if_pos (by omega), Nat.add_sub_cancel]
      exact ⟨0x80, 0xBF, rfl, by omega, by omega⟩

/-- The lead byte of a character of four bytes bounds the next one. Overlong forms and what is past
the last code point are out of bounds. -/
theorem first_four (ha : a ≤ 4) (hb : b < 64) (hoverlong : a = 0 → 0x10 ≤ b)
    (hpast : a = 4 → b < 0x10) : ∃ low high,
    first (a + 0xF0) = ([], some ⟨3, low, high, a⟩) ∧ low ≤ b + 0x80 ∧ b + 0x80 ≤ high := by
  rw [first, if_neg (by omega), if_neg (by omega), if_neg (by omega), if_neg (by omega),
    if_neg (by omega)]
  split
  · next hzero =>
      obtain rfl : a = 0 := by omega
      exact ⟨0x90, 0xBF, rfl, by omega, by omega⟩
  · split
    · rw [Nat.add_sub_cancel]
      exact ⟨0x80, 0xBF, rfl, by omega, by omega⟩
    · obtain rfl : a = 4 := by omega
      exact ⟨0x80, 0x8F, rfl, by omega, by omega⟩

end

/-! ## Characters -/

/-- The bytes of a character are read as that character. -/
theorem decodeFrom_character (c : Char) (bytes : List UInt8) :
    decodeFrom none (String.utf8EncodeChar c ++ bytes) = c :: decodeFrom none bytes := by
  obtain ⟨v, hv⟩ : ∃ v, v = c.val.toNat := ⟨_, rfl⟩
  have hvalid : v < 0xD800 ∨ 0xDFFF < v ∧ v < 0x110000 := hv ▸ c.valid
  have hchar : Char.ofNat v = c := hv ▸ Char.ofNat_toNat c
  rw [String.utf8EncodeChar, ← hv]
  split
  · next hone =>
      have hfirst : first v = ([Char.ofNat v], none) := if_pos hone
      rw [List.singleton_append, decodeFrom, UInt8.toNat_ofNat_of_lt' (show _ < 256 by omega),
        hfirst, hchar]
      rfl
  split
  · next hone htwo =>
      have hvalue : v / 64 % 32 * 64 + v % 64 = v := by omega
      simp only [List.cons_append, List.nil_append]
      rw [decodeFrom_lead (by omega) (first_two (by omega) (by omega)),
        decodeFrom_last (by omega) (by omega) (by omega), hvalue, hchar]
  split
  · next hone htwo hthree =>
      have hvalue : (v / 4096 % 16 * 64 + v / 64 % 64) * 64 + v % 64 = v := by omega
      obtain ⟨low, high, hfirst, hlow, hhigh⟩ := first_three (a := v / 4096 % 16)
        (b := v / 64 % 64) (by omega) (by omega) (by omega) (by omega)
      simp only [List.cons_append, List.nil_append]
      rw [decodeFrom_lead (by omega) hfirst, decodeFrom_tail (by omega) hlow hhigh,
        decodeFrom_last (by omega) (by omega) (by omega), hvalue, hchar]
  · next hone htwo hthree =>
      have hvalue :
          ((v / 262144 % 8 * 64 + v / 4096 % 64) * 64 + v / 64 % 64) * 64 + v % 64 = v := by
        omega
      obtain ⟨low, high, hfirst, hlow, hhigh⟩ := first_four (a := v / 262144 % 8)
        (b := v / 4096 % 64) (by omega) (by omega) (by omega) (by omega)
      simp only [List.cons_append, List.nil_append]
      rw [decodeFrom_lead (by omega) hfirst, decodeFrom_tail (by omega) hlow hhigh,
        decodeFrom_tail (by omega) (by omega) (by omega),
        decodeFrom_last (by omega) (by omega) (by omega), hvalue, hchar]

/-! ## Texts -/

/-- A text is read back from its bytes. -/
theorem decode_encode (text : String) : decode (encode text) = text.toList := by
  rw [decode, encode]
  induction text.toList with
  | nil => rfl
  | cons c cs ih => rw [List.flatMap_cons, decodeFrom_character, ih]

variable {text : String}

theorem decodeText_encode (h : text.toList.head? ≠ some '\uFEFF') :
    decodeText (encode text) = text := by
  rw [decodeText, decode_encode, dropMark_of_head? h, String.ofList_toList]

/-- The bytes of a byte order mark before those of a text are no part of it. -/
theorem decodeText_mark (text : String) :
    decodeText (0xEF :: 0xBB :: 0xBF :: encode text) = text := by
  have hmark : decode (0xEF :: 0xBB :: 0xBF :: encode text) = '\uFEFF' :: text.toList := by
    rw [← decode_encode text]
    exact decodeFrom_character '\uFEFF' (encode text)
  rw [decodeText, hmark, dropMark, if_pos rfl, String.ofList_toList]

end EoJava.Text.Utf8
