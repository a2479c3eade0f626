/-!
# Character ranges

A class of characters is a list of closed ranges of code points in ascending order. Membership
stops at the first range that begins past the character, so the common characters, which have the
lowest code points, are decided within a few steps.
-/

namespace SymbolicAlgebra.Text

/-- Whether a code point lies in one of the ranges, which ascend. -/
def inRanges : List (Nat × Nat) → Nat → Bool
  | [], _ => false
  | (low, high) :: rest, n => if n < low then false else n ≤ high || inRanges rest n

theorem inRanges_of_lt {low high n : Nat} (rest : List (Nat × Nat)) (h : n < low) :
    inRanges ((low, high) :: rest) n = false := by
  simp [inRanges, h]

end SymbolicAlgebra.Text
