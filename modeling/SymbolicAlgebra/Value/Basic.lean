import SymbolicAlgebra.Decimal.Binary64
import SymbolicAlgebra.Fault

/-!
# Values

A value is an exact rational number or a double. The two kinds print and calculate differently and
yet compare by the number they stand for: `Value.place?` puts both on the extended number line, and
equality and order are those of the places. An undefined double has no place, so it is neither equal
to nor ordered with anything.
-/

namespace SymbolicAlgebra

inductive Value where
  | exact (q : Rat)
  | float (x : Float)
  deriving Inhabited

/-- A point of the extended number line. -/
inductive Place where
  | below
  | finite (q : Rat)
  | above
  deriving DecidableEq

namespace Place

def lt : Place → Place → Bool
  | below, below => false
  | below, _ => true
  | finite p, finite q => p < q
  | finite _, above => true
  | _, _ => false

end Place

namespace Value

def zero : Value := exact 0

def one : Value := exact 1

def negativeOne : Value := exact (-1)

/-- The double that stands for no number. -/
def undefined : Value := float (Float.ofBits 0x7FF8000000000000)

def isExact : Value → Bool
  | exact _ => true
  | float _ => false

def isUndefined : Value → Bool
  | exact _ => false
  | float x => x.isNaN

def isFinite : Value → Bool
  | exact _ => true
  | float x => x.isFinite

/-- The number of a finite value, exactly. -/
def toRat? : Value → Option Rat
  | exact q => some q
  | float x => (Binary64.ofFloat? x).map Binary64.toRat

/-- Where a value lies on the extended number line; an undefined double lies nowhere. -/
def place? : Value → Option Place
  | exact q => some (.finite q)
  | float x =>
    match Binary64.ofFloat? x with
    | some b => some (.finite b.toRat)
    | none => if x.isNaN then none else if x < 0 then some .below else some .above

/-- The same number, of either kind. -/
def eq (a b : Value) : Bool :=
  match a.place?, b.place? with
  | some p, some q => p = q
  | _, _ => false

def lt (a b : Value) : Bool :=
  match a.place?, b.place? with
  | some p, some q => p.lt q
  | _, _ => false

/-- Likeness within trees: the same number, or both undefined. Any two undefined doubles are alike,
also where they were not copied from each other but came out of computations of their own. -/
def same (a b : Value) : Bool := a.eq b || (a.isUndefined && b.isUndefined)

def isZero (v : Value) : Bool := v.eq zero

def isOne (v : Value) : Bool := v.eq one

def isNegative (v : Value) : Bool := v.lt zero

def isPositive (v : Value) : Bool := zero.lt v

def isInteger (v : Value) : Bool :=
  match v.toRat? with
  | some q => q.den = 1
  | none => false

@[simp] theorem eq_exact (p q : Rat) : (exact p).eq (exact q) = decide (p = q) := by
  simp [eq, place?]

@[simp] theorem lt_exact (p q : Rat) : (exact p).lt (exact q) = decide (p < q) := rfl

@[simp] theorem same_exact (p q : Rat) : (exact p).same (exact q) = decide (p = q) := by
  simp [same, isUndefined]

@[simp] theorem isZero_exact (q : Rat) : (exact q).isZero = decide (q = 0) := eq_exact q 0

@[simp] theorem isOne_exact (q : Rat) : (exact q).isOne = decide (q = 1) := eq_exact q 1

@[simp] theorem isNegative_exact (q : Rat) : (exact q).isNegative = decide (q < 0) := rfl

@[simp] theorem isPositive_exact (q : Rat) : (exact q).isPositive = decide (0 < q) := rfl

end Value

end SymbolicAlgebra
