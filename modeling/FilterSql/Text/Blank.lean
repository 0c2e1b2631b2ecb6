/-!
# Blank characters

`isBlank` picks the characters that Unicode calls white space. A type name is stripped of them with
`trim`, and the fields of a date or a time may have some in front, which `trimStart` drops.
-/

namespace FilterSql.Text

/-- The white space of Unicode: the ASCII blanks, two Latin-1 ones, and those of the general
punctuation and the CJK blocks. `Char.isWhitespace` knows only four of them. -/
def isBlank (c : Char) : Bool :=
  let n := c.toNat
  (0x09 ≤ n && n ≤ 0x0D) || n == 0x20 || n == 0x85 || n == 0xA0 || n == 0x1680 ||
    (0x2000 ≤ n && n ≤ 0x200A) || n == 0x2028 || n == 0x2029 || n == 0x202F || n == 0x205F ||
    n == 0x3000

/-- Drops the leading blanks of `s`. -/
def trimStart (s : List Char) : List Char :=
  s.dropWhile isBlank

/-- Drops the blanks at both ends of `s`. -/
def trim (s : List Char) : List Char :=
  (trimStart (trimStart s).reverse).reverse

end FilterSql.Text
