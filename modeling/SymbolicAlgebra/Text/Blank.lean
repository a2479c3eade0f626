import SymbolicAlgebra.Text.Ranges

/-!
# Blanks

Blanks are the white space and line ends of every script together with the four information
separators, twenty-nine characters in all. Formulas are read with every blank taken out; lines and
names are read with the blanks at their ends taken off.
-/

namespace SymbolicAlgebra.Text

def blankRanges : List (Nat × Nat) :=
  [(0x9, 0xD), (0x1C, 0x20), (0x85, 0x85), (0xA0, 0xA0), (0x1680, 0x1680), (0x2000, 0x200A),
   (0x2028, 0x2029), (0x202F, 0x202F), (0x205F, 0x205F), (0x3000, 0x3000)]

def isBlank (c : Char) : Bool := inRanges blankRanges c.toNat

def withoutBlanks (text : List Char) : List Char := text.filter (!isBlank ·)

/-- The text without the blanks at its two ends. -/
def trimmed (text : List Char) : List Char :=
  ((text.dropWhile isBlank).reverse.dropWhile isBlank).reverse

theorem withoutBlanks_append (s t : List Char) :
    withoutBlanks (s ++ t) = withoutBlanks s ++ withoutBlanks t := by
  simp [withoutBlanks]

end SymbolicAlgebra.Text
