import SymbolicAlgebra.Tree.Construction

/-!
# Arithmetic on trees

Sums and products of trees, folded only as far as building a term or a sum folds them. Two terms are
added over a common denominator; if they are like, their coefficients are added, and otherwise they
become a sum, over the denominator if there is one.
-/

namespace SymbolicAlgebra

namespace Term

/-- The term over a denominator that it shares with another, with its value unchanged. -/
def withCommonDenominator (t other : Term) : Except Fault Term := do
  if t.sharesDenominator other then return t
  else
    of (← t.multiplier.mul other.divisor) (← t.divisor.mul other.divisor)
      (t.top ++ other.bottom) (t.bottom ++ other.bottom)

def add (s t : Term) : Except Fault Tree := do
  let left ← s.withCommonDenominator t
  let right ← t.withCommonDenominator s
  if left.isLike right then
    return .term { left with multiplier := ← left.multiplier.add right.multiplier }
  else if ← left.denominatorIsOne then
    return .sum (← summed [left, right])
  else
    let numerators ← summed
      [← of left.multiplier .one left.top [], ← of right.multiplier .one right.top []]
    return .term (← of .one left.divisor [⟨.sum numerators, .one⟩] left.bottom)

def mul (s t : Term) : Except Fault Term := do
  of (← s.multiplier.mul t.multiplier) (← s.divisor.mul t.divisor)
    (s.top ++ t.top) (s.bottom ++ t.bottom)

/-- The product of a term and a tree: coefficients and factors of a term are joined, a number goes
into the multiplier, and any other tree becomes a factor. -/
def times (s : Term) : Tree → Except Fault Term
  | .term t => s.mul t
  | .number v => s.scale v
  | t => of s.multiplier s.divisor (s.top ++ [t.toFactor]) s.bottom

end Term

namespace Tree

def isSum : Tree → Bool
  | sum _ => true
  | _ => false

def isTerm : Tree → Bool
  | term _ => true
  | _ => false

def add : Tree → Tree → Except Fault Tree
  | number a, number b => number <$> a.add b
  | term s, term t => s.add t
  | s, t => do
    if s.isSum || t.isSum then
      return sum (← Term.summed ((← s.summands) ++ (← t.summands)))
    else if s.isTerm || t.isTerm then sumOf [s, t]
    else (← s.toTerm).add (← t.toTerm)

def multiply : Tree → Tree → Except Fault Tree
  | number a, number b => number <$> a.mul b
  | sum terms, t => do
    match ← t.reduce with
    | term s => return term (← s.times (sum terms))
    | other => return term (← Term.of .one .one [⟨sum terms, .one⟩, other.toFactor] [])
  | s, t => do return term (← (← s.toTerm).times t)

def negate (t : Tree) : Except Fault Tree := t.multiply negativeOne

def divide (s t : Tree) : Except Fault Tree := do
  s.multiply (term (← Term.fraction one t))

def subtract (s t : Tree) : Except Fault Tree := do s.add (← t.negate)

end Tree

end SymbolicAlgebra
