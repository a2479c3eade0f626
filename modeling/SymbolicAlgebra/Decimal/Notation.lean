import SymbolicAlgebra.Decimal.Shortest

/-!
# Positional notation

Decimals are written without an exponent: the digits with a point among them, zeros filled in on
either side as needed, and at least one digit before the point. `quotient` finds the decimal of a
fraction to a number of significant digits, `toPlaces` the decimal of a fraction to a number of
places after the point. `scientific` writes one digit before the point and the rest as a power of
ten.
-/

namespace SymbolicAlgebra.Decimal

/-- A whole number has at most so many digits where its digits are converted. -/
def maxDigits : Nat := 4300

def digitChars (n : Nat) : List Char := Nat.toDigits 10 n

/-- The decimal written without an exponent. -/
def positional (x : Decimal) : List Char :=
  if 0 ≤ x.exponent then digitChars (x.digits * Nat.pow 10 x.exponent.toNat)
  else
    let places := (-x.exponent).toNat
    let digits := digitChars x.digits
    let padded := List.replicate (places + 1 - digits.length) '0' ++ digits
    let whole := padded.length - places
    padded.take whole ++ '.' :: padded.drop whole

def places (x : Decimal) : Nat := (-x.exponent).toNat

/-- The fraction `n / d` to the given number of significant digits, a half to the even neighbour. An
exact quotient keeps no zeros at its end, a rounded one keeps all its digits. -/
def quotient (precision n d : Nat) : Decimal :=
  let e := integerDigits n d - precision
  let (n', d') := scaled n d (-e)
  if n' % d' = 0 then stripped ⟨n' / d', e⟩
  else
    let q := roundQuotient n' d'
    if q = Nat.pow 10 precision then ⟨Nat.pow 10 (precision - 1), e + 1⟩ else ⟨q, e⟩

/-- The fraction `n / d` to the given number of places after the point, without zeros at the end. -/
def toPlaces (count n d : Nat) : Decimal :=
  stripped ⟨roundQuotient (n * Nat.pow 10 count) d, -count⟩

def leadingExponent (x : Decimal) : Int := x.exponent + (digitChars x.digits).length - 1

/-- The decimal with one digit before the point and a power of ten after the given mark, of at least
so many digits and always with its sign. -/
def scientific (mark : Char) (width : Nat) (x : Decimal) : List Char :=
  let e := x.leadingExponent
  let power := digitChars e.natAbs
  let padded := List.replicate (width - power.length) '0' ++ power
  let mantissa := match digitChars x.digits with
    | c :: d :: rest => c :: '.' :: d :: rest
    | digits => digits
  mantissa ++ mark :: (if e < 0 then '-' else '+') :: padded

end SymbolicAlgebra.Decimal
