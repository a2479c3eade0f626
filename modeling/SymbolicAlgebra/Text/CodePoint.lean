/-!
# Code points

A text in which halves of surrogate pairs may stand alone is a list of code points: characters and
such halves. A text of characters is one without halves.
-/

namespace SymbolicAlgebra.Text

inductive CodePoint where
  | char (c : Char)
  /-- Half of a surrogate pair that stands alone, by its place among the halves. -/
  | surrogate (place : Fin 0x800)
  deriving DecidableEq, Repr

namespace CodePoint

def firstSurrogate : Nat := 0xD800

/-- The code point with the given number, which must be below `0x110000`. -/
def ofNat (n : Nat) : CodePoint :=
  if h : firstSurrogate ≤ n ∧ n < firstSurrogate + 0x800 then
    surrogate ⟨n - firstSurrogate, by omega⟩
  else char (Char.ofNat n)

def toNat : CodePoint → Nat
  | char c => c.toNat
  | surrogate place => firstSurrogate + place

def ofChars (text : List Char) : List CodePoint := text.map char

def ofString (text : String) : List CodePoint := ofChars text.toList

theorem char_injective {c d : Char} (h : char c = char d) : c = d := by
  injection h

theorem ofChars_inj {s t : List Char} : ofChars s = ofChars t ↔ s = t :=
  List.map_inj_right fun _ _ => char_injective

end CodePoint

end SymbolicAlgebra.Text
