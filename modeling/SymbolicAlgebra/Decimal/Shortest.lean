import SymbolicAlgebra.Decimal.Binary64

/-!
# The shortest decimal of a double

A double is written with the fewest decimal digits that read back to it. The reals that round to a
double form an interval around it, with its ends exactly when the mantissa is even. For one digit,
two digits, and so on, the two neighbours of the double on the decimal grid of that many digits are
tried; the first grid with a neighbour inside the interval wins, and there the nearer neighbour, or
the even one when both are as near.
-/

namespace SymbolicAlgebra

/-- The magnitude `digits · 10 ^ exponent` of a decimal. -/
structure Decimal where
  digits : Nat
  exponent : Int
  deriving DecidableEq, Repr

namespace Decimal

/-- The decimal without zeros at the end of its digits, and zero with exponent zero. -/
def stripped (x : Decimal) : Decimal :=
  if h : x.digits = 0 then ⟨0, 0⟩
  else if x.digits % 10 = 0 then stripped ⟨x.digits / 10, x.exponent + 1⟩
  else x
termination_by x.digits
decreasing_by exact Nat.div_lt_self (Nat.pos_of_ne_zero h) (by decide)

/-- `n · 10 ^ e / d` for a possibly negative `e`, as a numerator and a denominator. -/
def scaled (n d : Nat) (e : Int) : Nat × Nat :=
  if 0 ≤ e then (n * Nat.pow 10 e.toNat, d) else (n, d * Nat.pow 10 (-e).toNat)

/-- The number of decimal digits of `n / d` before the point, zero or negative when it has none:
the least `k` with `n / d < 10 ^ k`. -/
def integerDigits (n d : Nat) : Int :=
  if d ≤ n then (Nat.toDigits 10 (n / d)).length else 1 - (Nat.toDigits 10 ((d - 1) / n)).length

end Decimal

namespace Binary64

/-- Whether `k · 10 ^ e` rounds to the double: it lies no further from it than halfway to the next
double on its side, and at the halfway point only if the mantissa is even. -/
def readsBack (x : Binary64) (k : Nat) (e : Int) : Bool :=
  -- All magnitudes are multiplied by `4 · 2 ^ (-exponent)`.
  let (n, d) := scaled k 1 e
  let (n, d) := Binary64.scaled (4 * n) d (-x.exponent)
  let middle := 4 * x.mantissa * d
  let below := if x.mantissa = Nat.pow 2 52 ∧ -1074 < x.exponent then d else 2 * d
  let above := 2 * d
  if x.mantissa % 2 = 0 then middle ≤ n + below && n ≤ middle + above
  else middle < n + below && n < middle + above
where
  scaled := Decimal.scaled

/-- The neighbour of the double on the grid of step `10 ^ e` that reads back, if one does. -/
def onGrid? (x : Binary64) (e : Int) : Option Decimal :=
  let (n, d) := x.magnitude
  let (n, d) := Decimal.scaled n d (-e)
  let low := n / d
  let high := low + 1
  match x.readsBack low e && low ≠ 0, x.readsBack high e with
  | true, true => some ⟨roundQuotient n d, e⟩
  | true, false => some ⟨low, e⟩
  | false, true => some ⟨high, e⟩
  | false, false => none

/-- The shortest decimal that reads back to the double; no double needs more than 17 digits. -/
def shortest (x : Binary64) : Decimal :=
  if x.mantissa = 0 then ⟨0, 0⟩
  else
    let (n, d) := x.magnitude
    let k := Decimal.integerDigits n d
    (((List.range 17).findSome? fun (i : Nat) => x.onGrid? (k - 1 - i)).getD
      ⟨x.mantissa, x.exponent⟩).stripped

end Binary64

end SymbolicAlgebra
