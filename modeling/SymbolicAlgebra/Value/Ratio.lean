import SymbolicAlgebra.Decimal.Notation
import SymbolicAlgebra.Value.Arithmetic

/-!
# Decimal places and lowest terms

`Value.decimalPlaces?` counts the digits after the point of a decimal expansion, and
`Value.reduceRatio` brings a pair of coefficients to whole numbers without a common divisor.
-/

namespace SymbolicAlgebra.Value

/-- The largest number of decimal places with which a double is scaled to a whole number. -/
def maxDecimalPlaces : Nat := 12

/-- The number of times a denominator can be divided by ten, or else two, or else five, until it is
one, within a number of steps. -/
def placesOf? : Nat → Nat → Option Nat
  | 0, d => if d = 1 then some 0 else none
  | steps + 1, d =>
    if d % 10 = 1 then if d = 1 then some 0 else none
    else if d % 10 = 0 then (placesOf? steps (d / 10)).map (· + 1)
    else if d % 2 = 0 then (placesOf? steps (d / 2)).map (· + 1)
    else if d % 5 = 0 then (placesOf? steps (d / 5)).map (· + 1)
    else none

/-- The number of digits after the point. An exact value with more than thirteen of them, or with no
finite expansion, has no such number; nor has a double that is not finite. -/
def decimalPlaces? : Value → Option Nat
  | exact q => placesOf? (maxDecimalPlaces + 1) q.den
  | float x => (Binary64.ofFloat? x).map fun b => b.shortest.places

/-- Two whole numbers divided by their greatest common divisor, the second one not negative. -/
def lowestTerms (n d : Int) : Int × Int :=
  let g : Int := n.gcd d
  let (n, d) := if 1 < g then (n / g, d / g) else (n, d)
  if d < 0 then (-n, -d) else (n, d)

/-- The whole number nearest to a double, a half to the even neighbour. -/
def roundFloat (x : Float) : Except Fault Int :=
  match Binary64.ofFloat? x with
  | none => throw .overflow
  | some b =>
    let (n, d) := b.magnitude
    let m : Int := roundQuotient n d
    return if b.negative then -m else m

/-- The value times a power of ten, on doubles, as a whole number. -/
def scaleToInteger (v : Value) (places : Nat) : Except Fault Int := do
  let x ← v.toFloat
  let scale ← (exact (Nat.pow 10 places)).toFloat
  roundFloat (x * scale)

def ofIntegers (n d : Int) : Value × Value :=
  let (n, d) := lowestTerms n d
  (exact n, exact d)

/-- A pair of coefficients in lowest terms with a positive denominator. Exact ones are scaled by the
least common multiple of their denominators; with a double among them both are scaled by a power of
ten, and where that takes too many places the pair becomes its inexact quotient over one. A pair
with a zero denominator or an infinite or undefined part stays as it is. -/
def reduceRatio (num den : Value) : Except Fault (Value × Value) :=
  if !(num.isFinite && den.isFinite) || den.isZero then pure (num, den)
  else
    match num, den with
    | exact p, exact q =>
      let scale : Nat := p.den.lcm q.den
      pure (ofIntegers (p * scale).num (q * scale).num)
    | _, _ =>
      match num.decimalPlaces?, den.decimalPlaces? with
      | some i, some j =>
        if max i j ≤ maxDecimalPlaces then do
          let n ← num.scaleToInteger (max i j)
          let d ← den.scaleToInteger (max i j)
          return ofIntegers n d
        else do return (← num.div den, one)
      | _, _ => do return (← num.div den, one)

end SymbolicAlgebra.Value
