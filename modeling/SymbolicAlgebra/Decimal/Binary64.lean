/-!
# Doubles as exact numbers

A finite double is `mantissa · 2 ^ exponent` with a sign. `Binary64.ofFloat?` reads the three parts
from its bits, and `Binary64.nearest?` goes the other way: it rounds a rational number to the
nearest double, a half to the even mantissa, and fails beyond the largest double.
-/

namespace SymbolicAlgebra

/-- The quotient of two numbers rounded to a whole number, a half to the even neighbour. -/
def roundQuotient (n d : Nat) : Nat :=
  let q := n / d
  if 2 * (n % d) < d then q else if d < 2 * (n % d) then q + 1 else q + q % 2

theorem roundQuotient_of_dvd {n d : Nat} (hd : 0 < d) (h : d ∣ n) : roundQuotient n d = n / d := by
  simp [roundQuotient, Nat.mod_eq_zero_of_dvd h, hd]

/-- A finite double. -/
structure Binary64 where
  negative : Bool
  mantissa : Nat
  exponent : Int
  deriving DecidableEq, Repr

namespace Binary64

/-- The parts of a double; none for an infinity and for an undefined number. -/
def ofFloat? (x : Float) : Option Binary64 :=
  let bits := x.toBits.toNat
  let fraction := bits % Nat.pow 2 52
  let scale : Nat := bits / Nat.pow 2 52 % Nat.pow 2 11
  let negative := bits / Nat.pow 2 63 = 1
  if scale = 2047 then none
  else if scale = 0 then some ⟨negative, fraction, -1074⟩
  else some ⟨negative, Nat.pow 2 52 + fraction, (scale : Int) - 1075⟩

/-- `n · 2 ^ e / d` for a possibly negative `e`, as a numerator and a denominator. -/
def scaled (n d : Nat) (e : Int) : Nat × Nat :=
  if 0 ≤ e then (n * Nat.pow 2 e.toNat, d) else (n, d * Nat.pow 2 (-e).toNat)

/-- The magnitude of a finite double, as a numerator and a denominator. -/
def magnitude (x : Binary64) : Nat × Nat := scaled x.mantissa 1 x.exponent

def toRat (x : Binary64) : Rat :=
  let (n, d) := x.magnitude
  mkRat (if x.negative then -(n : Int) else n) d

/-- The exponent of the doubles next to `n / d`, where `n` and `d` are positive. -/
def exponentOf (n d : Nat) : Int :=
  let a : Int := (n.log2 : Int) - d.log2
  let (n', d') := scaled n d (-a)
  max (if d' ≤ n' then a - 52 else a - 53) (-1074)

/-- The bits, without the sign, of the double nearest to `n / d`; none beyond the largest double. -/
def nearestBits? (n d : Nat) : Option Nat :=
  if n = 0 then some 0
  else
    let e := exponentOf n d
    let (n', d') := scaled n d (-e)
    let m := roundQuotient n' d'
    let bits := if m < Nat.pow 2 52 then m else (e + 1074).toNat * Nat.pow 2 52 + m
    if bits < 2047 * Nat.pow 2 52 then some bits else none

/-- The double nearest to a rational number; none beyond the largest double. -/
def nearest? (q : Rat) : Option Float :=
  (nearestBits? q.num.natAbs q.den).map fun bits =>
    Float.ofBits (UInt64.ofNat (if q.num < 0 then Nat.pow 2 63 + bits else bits))

end Binary64

end SymbolicAlgebra
