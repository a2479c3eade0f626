import SymbolicAlgebra.Tree.Predicate

/-!
# Building terms and sums

`Term.of` builds a term and folds what is numeric into its coefficients: factors with a value are
multiplied into the coefficient of their side, zeroth powers are dropped, and the sign of a negative
base is pulled out. `Tree.reduce` goes the other way and unwraps a term, sum or power that holds a
single thing. `Tree.sumOf` builds a sum with its terms in descending order of their highest power.
-/

namespace SymbolicAlgebra

mutual

/-- The tree without containers around a single thing: a sum of one term, a term of one factor
without other coefficients, a first power, a term without factors. -/
def Tree.reduce : Tree → Except Fault Tree
  | .power f => f.reduce
  | .term t => t.reduce
  | .sum [t] => t.reduce
  | t => pure t

def Factor.reduce : Factor → Except Fault Tree
  | ⟨base, exponent⟩ => do
    if ← exponent.isOne then base.reduce else return .power ⟨base, exponent⟩

def Term.reduce : Term → Except Fault Tree
  | ⟨multiplier, divisor, [⟨base, exponent⟩], bottom⟩ => do
    let whole : Term := ⟨multiplier, divisor, [⟨base, exponent⟩], bottom⟩
    if ← whole.denominatorIsOne then
      if ← Factor.isOne ⟨base, exponent⟩ then return .number multiplier
      else if multiplier.isOne then
        if ← exponent.isOne then base.reduce else return .term whole
      else return .term whole
    else return .term whole
  | t => pure (.term t)

end

namespace Term

/-- The term times a number, which goes into the multiplier. -/
def scale (t : Term) (v : Value) : Except Fault Term := do
  return { t with multiplier := ← t.multiplier.mul v }

end Term

/-- Multiplies the power of a base into a coefficient if it is numeric, and otherwise gives back the
factor that stays, with the sign of a negative base moved into the coefficient. -/
def Tree.absorb : Tree → Tree → Value → Except Fault (Value × Option Factor)
  | base, exponent, coefficient => do
    if ← exponent.isZero then return (coefficient, none)
    match ← Factor.value? ⟨base, exponent⟩ with
    | some v => return (← coefficient.mul v, none)
    | none =>
      let pullsSign ← if ← exponent.isOne then base.isNegative else pure false
      if pullsSign then
        let opposite ← match base with
          | .number v => .number <$> v.mul .negativeOne
          | .term t => do (← t.scale .negativeOne).reduce
          | .power ⟨b, e⟩ => do
            let (k, kept) ← absorb b e .one
            let t : Term := ⟨k, .one, Term.side kept.toList, Term.side []⟩
            (← t.scale .negativeOne).reduce
          | t => pure t
        return (← coefficient.mul .negativeOne, some ⟨opposite, .one⟩)
      else return (coefficient, some ⟨base, exponent⟩)

namespace Term

/-- Multiplies factors into a coefficient as far as they are numeric, and keeps the others. -/
def collect (coefficient : Value) (factors : List Factor) : Except Fault (Value × List Factor) :=
  factors.foldlM
    (fun (c, kept) f => do
      let (c, stays) ← f.base.absorb f.exponent c
      return (c, kept ++ stays.toList))
    (coefficient, [])

/-- A term with the given coefficients and factors, folded. -/
def of (multiplier divisor : Value) (top bottom : List Factor) : Except Fault Term := do
  let (m, top) ← collect multiplier top
  let (d, bottom) ← collect divisor bottom
  return ⟨m, d, side top, side bottom⟩

def ofFactor (f : Factor) : Except Fault Term := of .one .one [f] []

def fraction (numerator denominator : Tree) : Except Fault Term :=
  of .one .one [numerator.toFactor] [denominator.toFactor]

/-- The place of a term in a sum; terms without a numeric exponent come last. -/
def rank (t : Term) : Except Fault Float := do
  match ← t.highestPower? with
  | some power => if power.isUndefined then return least else power.toFloat
  | none => return least
where
  least := Float.ofBits 0xFFF0000000000000

/-- Puts a ranked term before the first one whose rank is no higher. -/
def insertRanked (a : Float × Term) : List (Float × Term) → List (Float × Term)
  | [] => [a]
  | b :: rest => if b.1 ≤ a.1 then a :: b :: rest else b :: insertRanked a rest

/-- Terms in descending order of their ranks; terms of one rank keep their order. -/
def sorted (terms : List Term) : Except Fault (List Term) := do
  let ranked ← terms.mapM fun t => do return (← t.rank, t)
  return (ranked.foldr insertRanked []).map (·.2)

theorem perm_insertRanked (a : Float × Term) (ranked : List (Float × Term)) :
    (insertRanked a ranked).Perm (a :: ranked) := by
  induction ranked with
  | nil => exact List.Perm.refl _
  | cons b rest ih =>
    unfold insertRanked
    split
    · exact List.Perm.refl _
    · exact (ih.cons b).trans (List.Perm.swap a b rest)

theorem perm_foldr_insertRanked (ranked : List (Float × Term)) :
    (ranked.foldr insertRanked []).Perm ranked := by
  induction ranked with
  | nil => exact List.Perm.refl _
  | cons a rest ih => exact (perm_insertRanked a _).trans (ih.cons a)

/-- The terms of a sum: sorted, and a zero if there are none. -/
def summed (terms : List Term) : Except Fault (List Term) :=
  sorted (if terms.isEmpty then [zero] else terms)

end Term

namespace Tree

def toTerm : Tree → Except Fault Term
  | term t => pure t
  | number v => pure (Term.ofValue v)
  | sum terms => do
    match ← (sum terms).reduce with
    | term t => return t
    | number v => return Term.ofValue v
    | t => Term.ofFactor t.toFactor
  | t => Term.ofFactor t.toFactor

/-- The sum of trees, as a sum of their terms. -/
def sumOf (trees : List Tree) : Except Fault Tree := do
  return sum (← Term.summed (← trees.mapM toTerm))

/-- The terms of which a tree is the sum; a sum of nothing but one zero has none. -/
def summands : Tree → Except Fault (List Term)
  | sum [t] => do if ← t.isZero then return [] else return [t]
  | sum terms => pure terms
  | t => do return [← t.toTerm]

end Tree

end SymbolicAlgebra
