/-
  TillLang.Text.Blank — white space, as dropped around a number that is read from loose
  text.
-/

import TillLang.Text.Ranges

namespace TillLang.Text

/-- Spaces of every width, tabs, and line and page breaks. -/
def blanks : Ranges :=
  [(0x9, 0xD), (0x20, 0x20), (0x85, 0x85), (0xA0, 0xA0), (0x1680, 0x1680), (0x2000, 0x200A),
   (0x2028, 0x2029), (0x202F, 0x202F), (0x205F, 0x205F), (0x3000, 0x3000)]

def isBlank (c : Char) : Bool := blanks.covers c.toNat

/-- A text without the white space at its ends. -/
def trimBlanks (s : List Char) : List Char :=
  ((s.dropWhile isBlank).reverse.dropWhile isBlank).reverse

end TillLang.Text
