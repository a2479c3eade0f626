import SymbolicAlgebra.Simplify

/-!
# Expansion

`Tree.expand` multiplies products of sums out, and whole powers of sums up to the power
`maxExpandedPower`. `Term.multiplyOut` multiplies every term of one sum with every term of another.
A product is taken apart into the pieces it multiplies by `Term.pieces`.
-/

namespace SymbolicAlgebra

/-- The highest power of a sum that is multiplied out. -/
def maxExpandedPower : Nat := 32

mutual

/-- The pieces of a tree: those of the term that it unwraps to, if that has no denominator, and
otherwise what it unwraps to. -/
def Tree.pieces : Tree → Except Fault (List Tree)
  | .power f => f.pieces
  | .term t => t.unwrappedPieces
  | .sum [t] => t.unwrappedPieces
  | t => pure [t]

def Factor.pieces : Factor → Except Fault (List Tree)
  | ⟨base, exponent⟩ => do
    if ← exponent.isOne then base.pieces else return [.power ⟨base, exponent⟩]

def Term.unwrappedPieces : Term → Except Fault (List Tree)
  | ⟨multiplier, divisor, [⟨base, exponent⟩], bottom⟩ => do
    let whole : Term := ⟨multiplier, divisor, [⟨base, exponent⟩], bottom⟩
    if ← whole.denominatorIsOne then
      if ← Factor.isOne ⟨base, exponent⟩ then return [.number multiplier]
      else
        let unwraps ← if multiplier.isOne then exponent.isOne else pure false
        if unwraps then base.pieces
        else return .number multiplier :: (← Factor.pieces ⟨base, exponent⟩)
    else return [.term whole]
  | ⟨multiplier, divisor, top, bottom⟩ => do
    if ← Term.denominatorIsOne ⟨multiplier, divisor, top, bottom⟩ then
      return .number multiplier :: (← Factor.piecesOfAll top)
    else return [.term ⟨multiplier, divisor, top, bottom⟩]

def Factor.piecesOfAll : List Factor → Except Fault (List Tree)
  | [] => pure []
  | f :: rest => do return (← f.pieces) ++ (← Factor.piecesOfAll rest)

end

/-- The multiplier of a term and the unwrapped factors that it multiplies. -/
def Term.pieces (t : Term) : Except Fault (List Tree) := do
  return .number t.multiplier :: (← Factor.piecesOfAll t.top)

namespace Term

/-- A sum with every term multiplied by a tree. -/
def multiplyAll (terms : List Term) (t : Tree) : Except Fault (List Term) := do
  summed (← terms.mapM (·.times t))

def products (ss ts : List Term) : Except Fault (List Term) :=
  (ss.flatMap fun s => ts.map fun t => (s, t)).mapM fun (s, t) => s.mul t

section
variable (n : Nat)

/-- The product of two sums, multiplied out and simplified. -/
def multiplyOut (ss ts : List Term) : Except Fault (List Term) := do
  simplifySumWith n (← summed (← products ss ts))

/-- A power of a sum, multiplied out from the left. -/
def powerOut (terms : List Term) : Nat → Except Fault (List Term)
  | 0 => summed [ofValue .one]
  | k + 1 => do multiplyOut n (← powerOut terms k) terms

/-- A sum times what a factor on a side of a term has expanded to. -/
def multiplyIn (output : List Term) : Tree → Except Fault (List Term)
  | .sum terms => multiplyOut n output terms
  | t => multiplyAll output t

end

end Term

mutual

def Tree.expandWith (n : Nat) : Tree → Except Fault Tree
  | .power f => f.expandWith n
  | .term t => t.expandWith n
  | .sum terms => do Tree.canonicalWith n (.sum (← Term.summed (← Term.expandedSummands n terms)))
  | .call f args => do return .call f (← Tree.expandAllWith n args)
  | t => pure t

def Factor.expandWith (n : Nat) : Factor → Except Fault Tree
  | ⟨base, exponent⟩ => do
    let base ← base.expandWith n
    let exponent ← Tree.canonicalWith n (← exponent.expandWith n)
    if ← exponent.isOne then return base
    else
      match ← base.reduce, ← exponent.integer? with
      | .sum terms, some power =>
        if 0 ≤ power ∧ power ≤ maxExpandedPower then
          (Tree.sum (← Term.powerOut n terms power.toNat)).reduce
        else return .power ⟨base, exponent⟩
      | .term t, some _ => Tree.canonicalWith n (.term (← Term.ofFactor ⟨.term t, exponent⟩))
      | _, _ => return .power ⟨base, exponent⟩

/-- Both sides of a term are multiplied out on their own. -/
def Term.expandWith (n : Nat) : Term → Except Fault Tree
  | ⟨multiplier, divisor, top, bottom⟩ => do
    let numerator ← Factor.expandProductWith n [Term.ofValue multiplier] top
    let denominator ← Factor.expandProductWith n [Term.ofValue divisor] bottom
    Tree.canonicalWith n (.term
      (← Term.fraction (← (Tree.sum numerator).reduce) (← (Tree.sum denominator).reduce)))

def Factor.expandProductWith (n : Nat) (output : List Term) :
    List Factor → Except Fault (List Term)
  | [] => pure output
  | f :: rest => do
    let output ← (← (← f.expandWith n).pieces).foldlM (Term.multiplyIn n) output
    Factor.expandProductWith n output rest

/-- The terms to which the terms of a sum expand. -/
def Term.expandedSummands (n : Nat) : List Term → Except Fault (List Term)
  | [] => pure []
  | t :: rest => do
    let terms ← (← t.expandWith n).summands
    return terms ++ (← Term.expandedSummands n rest)

def Tree.expandAllWith (n : Nat) : List Tree → Except Fault (List Tree)
  | [] => pure []
  | t :: rest => do
    let t ← t.expandWith n
    return t :: (← Tree.expandAllWith n rest)

end

def Tree.expand (t : Tree) : Except Fault Tree := withinSteps fun n => t.expandWith n

def Term.distribute (ss ts : List Term) : Except Fault (List Term) :=
  withinSteps fun n => Term.multiplyOut n ss ts

end SymbolicAlgebra
