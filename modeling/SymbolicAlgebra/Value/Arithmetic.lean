import SymbolicAlgebra.Value.Basic

/-!
# Arithmetic of values

Exact operands give an exact result; an operation with a double operand is carried out on doubles.
A division by zero and a negative power of zero are undefined, not faults. Only a conversion can
fail, when an exact operand lies beyond the largest double.
-/

namespace SymbolicAlgebra.Value

/-- The largest magnitude of a whole exponent with which a power is computed exactly. -/
def maxExactExponent : Nat := 1024

def toFloat : Value → Except Fault Float
  | exact q =>
    match Binary64.nearest? q with
    | some x => pure x
    | none => throw .overflow
  | float x => pure x

def inexact (op : Float → Float → Float) (a b : Value) : Except Fault Value := do
  let x ← a.toFloat
  let y ← b.toFloat
  return float (op x y)

def add (a b : Value) : Except Fault Value :=
  match a, b with
  | exact p, exact q => pure (exact (p + q))
  | _, _ => inexact (· + ·) a b

def mul (a b : Value) : Except Fault Value :=
  match a, b with
  | exact p, exact q => pure (exact (p * q))
  | _, _ => inexact (· * ·) a b

def div (a b : Value) : Except Fault Value :=
  if b.isZero || b.isUndefined then pure undefined
  else
    match a, b with
    | exact p, exact q => pure (exact (p / q))
    | _, _ => inexact (· / ·) a b

/-- The exponent of a power of exact values that is computed exactly: a whole number of magnitude at
most `maxExactExponent`. -/
def exactExponent? : Value → Option Int
  | exact q => if q.den = 1 ∧ q.num.natAbs ≤ maxExactExponent then some q.num else none
  | float _ => none

def pow (a b : Value) : Except Fault Value :=
  if a.isZero && b.isNegative then pure undefined
  else
    match a, b.exactExponent? with
    | exact p, some n => pure (exact (p ^ n))
    | _, _ => inexact Float.pow a b

/-- The power of two values, unless both are exact and it is not. -/
def exactPower? (a b : Value) : Except Fault (Option Value) := do
  let result ← a.pow b
  return if a.isExact && b.isExact && !result.isExact then none else some result

def abs : Value → Value
  | exact q => exact (if q < 0 then -q else q)
  | float x => float x.abs

theorem add_exact (p q : Rat) : add (exact p) (exact q) = .ok (exact (p + q)) := rfl

theorem mul_exact (p q : Rat) : mul (exact p) (exact q) = .ok (exact (p * q)) := rfl

theorem div_exact {q : Rat} (p : Rat) (h : q ≠ 0) :
    div (exact p) (exact q) = .ok (exact (p / q)) := by
  simp [div, h, isUndefined, pure, Except.pure]

theorem div_zero (a : Value) : div a zero = .ok undefined := by
  simp [div, zero, pure, Except.pure]

theorem pow_exact {p : Rat} {n : Int} (h : p ≠ 0 ∨ 0 ≤ n) (hn : n.natAbs ≤ maxExactExponent) :
    pow (exact p) (exact n) = .ok (exact (p ^ n)) := by
  have hneg : ((exact p).isZero && (exact (n : Rat)).isNegative) = false := by
    rcases h with h | h
    · simp [h]
    · have : ¬ ((n : Rat) < 0) := by
        rw [Rat.not_lt]
        exact_mod_cast h
      simp [this]
  have hexp : exactExponent? (exact (n : Rat)) = some n := by
    simp [exactExponent?, hn]
  unfold pow
  rw [hneg, hexp]
  rfl

end SymbolicAlgebra.Value
