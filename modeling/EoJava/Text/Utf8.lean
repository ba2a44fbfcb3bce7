import EoJava.Text.Lines

/-!
# UTF-8

Bytes to characters, one byte at a time. Between characters nothing is pending; after the lead
byte of a longer character, a number of tail bytes is owed, the next of them within bounds that
shut out overlong forms, surrogates and code points past U+10FFFF. Bytes that belong to no
character show as U+FFFD, one for each longest start of a character that is broken off.
-/

namespace EoJava.Text.Utf8

/-- A character whose tail bytes are still to come: how many, the bounds of the next one, and the
value of the bits read. -/
structure Pending where
  owed : Nat
  low : Nat
  high : Nat
  value : Nat
deriving DecidableEq, Repr

/-- What one byte gives: the characters it completes, and what is pending after it. -/
abbrev Step := List Char × Option Pending

/-- A byte met between characters. -/
def first (b : Nat) : Step :=
  if b ≤ 0x7F then ([Char.ofNat b], none)
  else if 0xC2 ≤ b ∧ b ≤ 0xDF then ([], some ⟨1, 0x80, 0xBF, b - 0xC0⟩)
  else if b = 0xE0 then ([], some ⟨2, 0xA0, 0xBF, 0⟩)
  else if b = 0xED then ([], some ⟨2, 0x80, 0x9F, b - 0xE0⟩)
  else if 0xE1 ≤ b ∧ b ≤ 0xEF then ([], some ⟨2, 0x80, 0xBF, b - 0xE0⟩)
  else if b = 0xF0 then ([], some ⟨3, 0x90, 0xBF, 0⟩)
  else if 0xF1 ≤ b ∧ b ≤ 0xF3 then ([], some ⟨3, 0x80, 0xBF, b - 0xF0⟩)
  else if b = 0xF4 then ([], some ⟨3, 0x80, 0x8F, b - 0xF0⟩)
  else (['\uFFFD'], none)

/-- A byte met while a character is pending. A byte out of bounds breaks the character off and is
then read as a first byte. -/
def tail (pending : Pending) (b : Nat) : Step :=
  if pending.low ≤ b ∧ b ≤ pending.high then
    let value := pending.value * 64 + (b - 0x80)
    if pending.owed ≤ 1 then ([Char.ofNat value], none)
    else ([], some ⟨pending.owed - 1, 0x80, 0xBF, value⟩)
  else
    let (chars, next) := first b
    ('\uFFFD' :: chars, next)

/-- The characters of a byte sequence, given what is pending before it. -/
def decodeFrom : Option Pending → List UInt8 → List Char
  | none, [] => []
  | some _, [] => ['\uFFFD']
  | none, b :: bs =>
    let (chars, next) := first b.toNat
    chars ++ decodeFrom next bs
  | some pending, b :: bs =>
    let (chars, next) := tail pending b.toNat
    chars ++ decodeFrom next bs

/-- The characters of a byte sequence. -/
def decode (bytes : List UInt8) : List Char :=
  decodeFrom none bytes

/-- The text of a byte sequence. One byte order mark at its start marks the encoding and is no
part of the text. -/
def decodeText (bytes : List UInt8) : String :=
  String.ofList (dropMark (decode bytes))

/-- The bytes of a text. -/
def encode (text : String) : List UInt8 :=
  text.toList.flatMap String.utf8EncodeChar

end EoJava.Text.Utf8
