import SymbolicAlgebra.Tree.Basic
import SymbolicAlgebra.Value.Arithmetic

/-!
# Predicates on trees

Which trees are numbers, which are one, zero or negative, and which hold no variable. `plainValue?`
is the value of a tree made only of numbers. Deciding these may compute a power on doubles, so it
can fail as that can.
-/

namespace SymbolicAlgebra

mutual

/-- The value of a tree made only of numbers. -/
def Tree.plainValue? : Tree → Except Fault (Option Value)
  | .number v => pure (some v)
  | .power f => f.value?
  | .term t => t.plainValue?
  | .sum [t] => t.plainValue?
  | _ => pure none

/-- The value of a power of numbers, if it is not an inexact power of exact ones. -/
def Factor.value? : Factor → Except Fault (Option Value)
  | ⟨base, exponent⟩ => do
    match ← base.plainValue? with
    | none => pure none
    | some b =>
      match ← exponent.plainValue? with
      | none => pure none
      | some e => b.exactPower? e

def Term.plainValue? : Term → Except Fault (Option Value)
  | ⟨multiplier, divisor, top, bottom⟩ => do
    if ← Factor.allOne top then
      if ← Factor.allOne bottom then
        return some (← multiplier.div divisor)
      else return none
    else return none

def Tree.isOne : Tree → Except Fault Bool
  | .number v => pure v.isOne
  | .power f => f.isOne
  | .term t => t.isOne
  | .sum [t] => t.isOne
  | _ => pure false

def Factor.isOne : Factor → Except Fault Bool
  | ⟨base, exponent⟩ => do if ← exponent.isZero then return true else base.isOne

def Term.isOne : Term → Except Fault Bool
  | ⟨multiplier, divisor, top, bottom⟩ => do
    if multiplier.isOne && divisor.isOne then
      if ← Factor.allOne bottom then Factor.allOne top else return false
    else return false

def Factor.allOne : List Factor → Except Fault Bool
  | [] => pure true
  | f :: rest => do if ← f.isOne then Factor.allOne rest else return false

def Tree.isZero : Tree → Except Fault Bool
  | .number v => pure v.isZero
  | .power f => f.isZero
  | .term t => t.isZero
  | .sum terms => Term.allZero terms
  | _ => pure false

/-- A positive power of zero. -/
def Factor.isZero : Factor → Except Fault Bool
  | ⟨base, exponent⟩ => do
    let e ← exponent.plainValue?
    if ← base.isZero then return e.any Value.isPositive else return false

def Term.isZero : Term → Except Fault Bool
  | ⟨multiplier, _, top, _⟩ =>
    if multiplier.isZero then pure true else Factor.anyZero top

def Factor.anyZero : List Factor → Except Fault Bool
  | [] => pure false
  | f :: rest => do if ← f.isZero then return true else Factor.anyZero rest

def Term.allZero : List Term → Except Fault Bool
  | [] => pure true
  | t :: rest => do if ← t.isZero then Term.allZero rest else return false

end

def Term.isNumber (t : Term) : Except Fault Bool := do
  if ← Factor.allOne t.top then Factor.allOne t.bottom else return false

mutual

def Tree.isNumber : Tree → Except Fault Bool
  | .number _ => pure true
  | .power f => f.isNumber
  | .term t => t.isNumber
  | .sum [t] => t.isNumber
  | _ => pure false

def Factor.isNumber : Factor → Except Fault Bool
  | ⟨base, exponent⟩ => do if ← base.isNumber then exponent.isNumber else return false

end

/-- A term is negative if exactly one of its coefficients is. -/
def Term.isNegative (t : Term) : Bool := t.multiplier.isNegative != t.divisor.isNegative

mutual

def Tree.isNegative : Tree → Except Fault Bool
  | .number v => pure v.isNegative
  | .power f => f.isNegative
  | .term t => pure t.isNegative
  | _ => pure false

def Factor.isNegative : Factor → Except Fault Bool
  | ⟨base, exponent⟩ => do if ← exponent.isOne then base.isNegative else return false

end

mutual

/-- Whether a tree holds no variable. -/
def Tree.isConstant : Tree → Bool
  | .number _ | .constant _ => true
  | .variable _ => false
  | .power f => f.isConstant
  | .term t => t.isConstant
  | .sum terms => Term.allConstant terms
  | .call _ args => Tree.allConstant args

def Factor.isConstant : Factor → Bool
  | ⟨base, exponent⟩ => base.isConstant && exponent.isConstant

def Term.isConstant : Term → Bool
  | ⟨_, _, top, bottom⟩ => Factor.allConstant top && Factor.allConstant bottom

def Factor.allConstant : List Factor → Bool
  | [] => true
  | f :: rest => f.isConstant && Factor.allConstant rest

def Term.allConstant : List Term → Bool
  | [] => true
  | t :: rest => t.isConstant && Term.allConstant rest

def Tree.allConstant : List Tree → Bool
  | [] => true
  | t :: rest => t.isConstant && Tree.allConstant rest

end

namespace Term

def denominatorIsOne (t : Term) : Except Fault Bool :=
  if t.divisor.isOne then Factor.allOne t.bottom else pure false

/-- Terms are like if their factors match, whatever their order and the coefficients. -/
def isLike (s t : Term) : Bool := s.top.isPerm t.top && s.bottom.isPerm t.bottom

def sharesDenominator (s t : Term) : Bool :=
  s.divisor.same t.divisor && s.bottom.isPerm t.bottom

end Term

/-- Whether a tree is a term with a denominator. -/
def Tree.isFraction : Tree → Except Fault Bool
  | .term t => return !(← t.denominatorIsOne)
  | _ => pure false

/-- The highest of the numeric exponents, where a factor without variables counts as a zeroth
power. An undefined exponent is neither higher nor lower than another. -/
def Factor.highestPower? (factors : List Factor) : Except Fault (Option Value) :=
  factors.foldlM
    (fun highest f => do
      match ← f.exponent.plainValue? with
      | none => return highest
      | some e =>
        let power := if f.base.isConstant then .zero else e
        return if highest.all (·.lt power) then some power else highest)
    none

def Term.highestPower? (t : Term) : Except Fault (Option Value) := do
  match ← Factor.highestPower? t.top with
  | some power => return some power
  | none => Factor.highestPower? t.bottom

end SymbolicAlgebra
