/-!
Blank characters: what may surround the text of a number.
-/

namespace MiniAlgol.Text

/-- Space, the five ASCII layout controls from tab to carriage return, and the blanks of Unicode
beyond ASCII. The ASCII information separators are not blanks here. -/
def isBlank (c : Char) : Bool :=
  let n := c.toNat
  n == 0x20 || (0x09 ≤ n && n ≤ 0x0d) || n == 0x85 || n == 0xa0 || n == 0x1680
    || (0x2000 ≤ n && n ≤ 0x200a) || n == 0x2028 || n == 0x2029 || n == 0x202f || n == 0x205f
    || n == 0x3000

/-- The characters without the blanks on either side. -/
def trimBlanks (cs : List Char) : List Char :=
  ((cs.dropWhile isBlank).reverse.dropWhile isBlank).reverse

end MiniAlgol.Text
