/-!
# Blank text

The characters that do not count at the edges of a line: the space separators of the Unicode
standard, the tabulation and line ending controls, and U+FEFF. A line of such characters, or one
whose first other character starts a comment, carries nothing.
-/

namespace EoJava.Text

/-- Characters that do not count at the edges of a line. -/
def isBlank (c : Char) : Bool :=
  let n := c.toNat
  (0x09 ≤ n && n ≤ 0x0D) || n == 0x20 || n == 0xA0 || n == 0x1680 ||
    (0x2000 ≤ n && n ≤ 0x200A) || n == 0x2028 || n == 0x2029 || n == 0x202F || n == 0x205F ||
    n == 0x3000 || n == 0xFEFF

/-- A line holds nothing when its first character that counts, if any, starts a comment. -/
def holdsNothing (line : List Char) : Bool :=
  match line.dropWhile isBlank with
  | [] => true
  | c :: _ => c == '#'

end EoJava.Text
