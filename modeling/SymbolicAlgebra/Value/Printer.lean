import SymbolicAlgebra.Value.Ratio

/-!
# The text of a value

Whole numbers are written by their digits, terminating fractions as decimals of at most 28
significant digits, and other fractions as ratios. A double is written by its shortest decimal,
rounded to twelve places after the point. No text has an exponent. A whole number with more than
4300 digits has no text, nor has a decimal with a digit above `10 ^ 999999`.
-/

namespace SymbolicAlgebra.Value

/-- The number of significant digits of a written terminating fraction. -/
def significantDigits : Nat := 28

/-- The largest magnitude, exclusive, of a whole double that is written without a sign of zero. -/
def wholeFloatLimit : Nat := Nat.pow 10 15

/-- The exponent of the first digit of a written decimal is at most this. -/
def highestExponent : Int := 999999

def signed (negative : Bool) (magnitude : List Char) : List Char :=
  if negative then '-' :: magnitude else magnitude

def integerChars (n : Int) : Except Fault (List Char) :=
  let digits := Decimal.digitChars n.natAbs
  if Decimal.maxDigits < digits.length then throw .tooManyDigits
  else pure (signed (n < 0) digits)

def quotientChars (n : Int) (d : Nat) : Except Fault (List Char) :=
  let x := Decimal.quotient significantDigits n.natAbs d
  if highestExponent < x.leadingExponent then throw .decimalOverflow
  else pure (signed (n < 0) x.positional)

def ratioChars (n : Int) (d : Nat) : Except Fault (List Char) := do
  return (← integerChars n) ++ '/' :: (← integerChars d)

def exactChars (q : Rat) : Except Fault (List Char) :=
  if q.den = 1 then integerChars q.num
  else if ((exact q).decimalPlaces?).isSome then quotientChars q.num q.den
  else ratioChars q.num q.den

def finiteChars (b : Binary64) : List Char :=
  let (n, d) := b.magnitude
  if n % d = 0 ∧ n / d < wholeFloatLimit then
    signed (b.negative && n ≠ 0) (Decimal.digitChars (n / d))
  else
    let short := b.shortest
    signed b.negative
      (if short.places ≤ maxDecimalPlaces then short else
        Decimal.toPlaces maxDecimalPlaces n d).positional

def toChars : Value → Except Fault (List Char)
  | exact q => exactChars q
  | float x =>
    match Binary64.ofFloat? x with
    | some b => pure (finiteChars b)
    | none =>
      pure (if x.isNaN then "NaN".toList else if x < 0 then "-inf".toList else "inf".toList)

/-- A double with all its digits: by position, with at least one digit after the point, for
magnitudes from `10 ^ -4` up to `10 ^ 16`, and otherwise with a power of ten. -/
def floatChars (x : Float) : List Char :=
  match Binary64.ofFloat? x with
  | some b =>
    let short := b.shortest
    signed b.negative <|
      if short.digits = 0 ∨ (-4 ≤ short.leadingExponent ∧ short.leadingExponent < 16) then
        if short.exponent < 0 then short.positional else short.positional ++ ['.', '0']
      else short.scientific 'e' 2
  | none => if x.isNaN then "nan".toList else if x < 0 then "-inf".toList else "inf".toList

def format (v : Value) : Except Fault String := do return String.ofList (← v.toChars)

end SymbolicAlgebra.Value
