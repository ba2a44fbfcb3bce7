/-!
# Text measured in 16-bit units

Columns, widths and offsets count 16-bit code units: a character above U+FFFF takes two, every
other character one. `width` adds them up, so it is additive over concatenation (`width_append`) and
agrees with the length on text without such characters. `takeUnits` cuts a text to a width
(`width_takeUnits_le`).
-/

namespace EoJava.Text

/-- The number of 16-bit units a character takes. -/
def units (c : Char) : Nat :=
  if c.toNat < 0x10000 then 1 else 2

/-- The number of 16-bit units a text takes. -/
def width : List Char → Nat
  | [] => 0
  | c :: cs => units c + width cs

/-- The character that stands for the first unit of `c`. Half of a pair is no character, so it
shows as U+FFFD. -/
def firstUnit (c : Char) : Char :=
  if c.toNat < 0x10000 then c else '\uFFFD'

/-- A text cut after so many units. A character that is cut in half shows as its first unit. -/
def takeUnits : Nat → List Char → List Char
  | _, [] => []
  | 0, _ :: _ => []
  | limit + 1, c :: cs =>
    if units c ≤ limit + 1 then c :: takeUnits (limit + 1 - units c) cs else [firstUnit c]

/-- Every character takes at least one unit. -/
theorem units_pos (c : Char) : 0 < units c := by
  unfold units
  split <;> omega

/-- What stands for a first unit takes one. -/
theorem units_firstUnit (c : Char) : units (firstUnit c) = 1 := by
  unfold firstUnit
  split
  · next single => simp [units, single]
  · decide

@[simp]
theorem width_nil : width [] = 0 := rfl

@[simp]
theorem width_cons (c : Char) (cs : List Char) : width (c :: cs) = units c + width cs := rfl

/-- Widths add up. -/
@[simp]
theorem width_append (cs ds : List Char) : width (cs ++ ds) = width cs + width ds := by
  induction cs with
  | nil => simp
  | cons c cs ih => simp [ih, Nat.add_assoc]

/-- A cut text takes no more units than it may. -/
theorem width_takeUnits_le (limit : Nat) (text : List Char) :
    width (takeUnits limit text) ≤ limit := by
  fun_induction takeUnits limit text with
  | case1 => simp
  | case2 => simp
  | case3 limit c cs fits ih =>
    simp only [width_cons]
    omega
  | case4 limit c cs cut => simp [units_firstUnit]

end EoJava.Text
