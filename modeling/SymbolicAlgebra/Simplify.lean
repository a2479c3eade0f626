import SymbolicAlgebra.Steps
import SymbolicAlgebra.Tree.Arithmetic
import SymbolicAlgebra.Value.Ratio

/-!
# Simplification

`Tree.simplify` brings a tree to a simpler one of the same value. In a term, powers of equal bases
are merged, cancelled across the fraction bar and folded into the coefficients, powers of terms are
multiplied out into powers of their factors, and the coefficients are reduced to lowest terms. In a
sum, nested sums are spliced in and like terms are added. `Tree.canonical` also unwraps the result.

The rewriting is not structural: exponents are added to new sums that are simplified in turn, and
both a term and a sum are worked through as a queue that grows. So `Tree.simplifyWith` takes a
number of steps, which bounds the depth of the recursion and the length of each queue, and the fault
`exhausted` says that they did not suffice. `Tree.simplify` takes as many steps as suffice.
-/

namespace SymbolicAlgebra

/-- The whole number that a tree is, exactly. -/
def Tree.integer? (t : Tree) : Except Fault (Option Int) := do
  match ← t.plainValue? with
  | some (.exact q) => return if q.den = 1 then some q.num else none
  | _ => return none

/-- Whether `(b ^ m) ^ n` is `b ^ (m · n)` for every `n`, which it is for whole `m` and for bases
that are not negative. -/
def Factor.joins (f : Factor) : Except Fault Bool := do
  match ← f.exponent.integer? with
  | some _ => return true
  | none => return !(← f.base.isNegative)

def Factor.allJoin : List Factor → Except Fault Bool
  | [] => pure true
  | f :: rest => do if ← f.joins then Factor.allJoin rest else return false

section
variable (canonical : Tree → Except Fault Tree)

/-- The power of a base, with powers in the base joined to the exponent. -/
def Factor.join : Tree → Tree → Except Fault Factor
  | .power ⟨b, e⟩, exponent => do
    if ← Factor.joins ⟨b, e⟩ then
      Factor.join b (← canonical (← e.multiply exponent))
    else return ⟨.power ⟨b, e⟩, exponent⟩
  | base, exponent => pure ⟨base, exponent⟩

/-- A factor with base and exponent in canonical form and its powers joined. -/
def Factor.normalize (f : Factor) : Except Fault Factor := do
  let base ← canonical f.base
  let exponent ← canonical f.exponent
  Factor.join canonical base exponent

def Tree.canonicalSum (s t : Tree) : Except Fault Tree := do canonical (← s.add t)

end

-- The factors that were gathered on one side of a term, no two of them with like bases, in the order
-- in which their bases came.
namespace Factor

def exponentOf? (factors : List Factor) (base : Tree) : Option Tree :=
  (factors.find? (·.base.same base)).map (·.exponent)

/-- Sets the exponent of a base, at its place if it has one and at the end otherwise. -/
def setExponent (base exponent : Tree) : List Factor → List Factor
  | [] => [⟨base, exponent⟩]
  | f :: rest =>
    if f.base.same base then ⟨f.base, exponent⟩ :: rest else f :: setExponent base exponent rest

def eraseBase (base : Tree) (factors : List Factor) : List Factor :=
  factors.eraseP (·.base.same base)

end Factor

/-- A term while its factors are gathered: its coefficients and the powers on its two sides. -/
structure Product where
  multiplier : Value
  divisor : Value
  top : List Factor
  bottom : List Factor

/-- A factor that is still to be gathered, on top or at the bottom. -/
structure Product.Item where
  factor : Factor
  onTop : Bool

namespace Product

def items (top bottom : List Factor) (onTop : Bool) : List Item :=
  top.map (⟨·, onTop⟩) ++ bottom.map (⟨·, !onTop⟩)

/-- Multiplies by `n / d` if the item stands on top and by `d / n` otherwise. -/
def multiplyBy (p : Product) (n d : Value) (onTop : Bool) : Except Fault Product := do
  let (n, d) := if onTop then (n, d) else (d, n)
  return { p with multiplier := ← p.multiplier.mul n, divisor := ← p.divisor.mul d }

/-- Multiplies the coefficient of a side by the value of a factor on it. -/
def fold (p : Product) (v : Value) (onTop : Bool) : Except Fault Product := do
  if onTop then return { p with multiplier := ← p.multiplier.mul v }
  else return { p with divisor := ← p.divisor.mul v }

section
variable (canonical : Tree → Except Fault Tree)

def merge (factors : List Factor) (f : Factor) : Except Fault (List Factor) := do
  match Factor.exponentOf? factors f.base with
  | some e => return Factor.setExponent f.base (← e.canonicalSum canonical f.exponent) factors
  | none => return factors ++ [f]

def gather (p : Product) (f : Factor) (onTop : Bool) : Except Fault Product := do
  if onTop then return { p with top := ← merge canonical p.top f }
  else return { p with bottom := ← merge canonical p.bottom f }

/-- The factors of a term, each raised to a power. -/
def raised (factors : List Factor) (power : Int) : Except Fault (List Factor) :=
  factors.mapM fun g => do
    return ⟨g.base, ← g.exponent.multiply (.number (.exact power))⟩

/-- Gathers one item. A whole power of a term with factors that join is multiplied out, and the
powers of its factors are to be gathered later. -/
def step (p : Product) (item : Item) : Except Fault (Product × List Item) := do
  let f ← item.factor.normalize canonical
  if ← f.exponent.isZero then return (p, [])
  match ← f.value? with
  | some v => return (← p.fold v item.onTop, [])
  | none =>
    match f.base, ← f.exponent.integer? with
    | .term t, some power =>
      if ← Factor.allJoin (t.top ++ t.bottom) then
        let n ← t.multiplier.pow (.exact power)
        let d ← t.divisor.pow (.exact power)
        let p ← p.multiplyBy n d item.onTop
        let top ← raised t.top power
        let bottom ← raised t.bottom power
        return (p, items top bottom item.onTop)
      else return (← p.gather canonical f item.onTop, [])
    | _, _ => return (← p.gather canonical f item.onTop, [])

def run : Nat → Product → List Item → Except Fault Product
  | _, p, [] => pure p
  | 0, _, _ :: _ => throw .exhausted
  | steps + 1, p, item :: rest => do
    let (p, more) ← p.step canonical item
    run steps p (rest ++ more)

/-- Cancels a base that stands on both sides. -/
def cancelBase (p : Product) (base : Tree) : Except Fault Product := do
  match Factor.exponentOf? p.top base, Factor.exponentOf? p.bottom base with
  | some m, some n =>
    let p := { p with top := Factor.eraseBase base p.top, bottom := Factor.eraseBase base p.bottom }
    let exponent ← m.canonicalSum canonical (← n.negate)
    let value? ← exponent.plainValue?
    if value?.any Value.isNegative then
      return { p with bottom := p.bottom ++ [⟨base, ← canonical (← exponent.negate)⟩] }
    else if ← exponent.isZero then return p
    else return { p with top := p.top ++ [⟨base, exponent⟩] }
  | _, _ => return p

def cancel (p : Product) : Except Fault Product :=
  (p.top.filter fun f => (Factor.exponentOf? p.bottom f.base).isSome).foldlM
    (fun p f => p.cancelBase canonical f.base) p

end

def toTerm (p : Product) : Except Fault Term := do
  if p.multiplier.isZero then return Term.zero
  let (m, d) ← Value.reduceRatio p.multiplier p.divisor
  Term.of m d p.top p.bottom

end Product

section
variable (steps : Nat) (canonical : Tree → Except Fault Tree)

def Term.simplifyBy (t : Term) : Except Fault Term := do
  if t.multiplier.isZero then return Term.zero
  let p ← Product.run canonical steps ⟨t.multiplier, t.divisor, [], []⟩
    (Product.items t.top t.bottom true)
  (← p.cancel canonical).toTerm

/-- Adds a term to the first like one, which goes away if the sum is zero, or puts it at the end. -/
def Term.combine : List Term → Term → Except Fault (List Term)
  | [], t => pure [t]
  | other :: rest, t => do
    if other.isLike t then
      let total ← (← (← other.add t).toTerm).simplifyBy steps canonical
      if ← total.isZero then return rest else return total :: rest
    else return other :: (← Term.combine rest t)

/-- Works through a queue of terms; a term that turns out to be a sum puts its terms at the end. -/
def Term.combineAll : Nat → List Term → List Term → Except Fault (List Term)
  | _, combined, [] => pure combined
  | 0, _, _ :: _ => throw .exhausted
  | n + 1, combined, t :: pending => do
    let t ← t.simplifyBy steps canonical
    match ← t.reduce with
    | .sum terms => Term.combineAll n combined (pending ++ terms)
    | _ =>
      if ← t.isZero then Term.combineAll n combined pending
      else Term.combineAll n (← Term.combine steps canonical combined t) pending

def Term.simplifySumBy (terms : List Term) : Except Fault (List Term) := do
  let combined ← Term.combineAll steps canonical steps [] terms
  Term.summed (← combined.filterM fun t => do return !(← t.isZero))

/-- One level of simplification, given what brings the trees within to canonical form. -/
def Tree.simplifyBy : Tree → Except Fault Tree
  | .term t => .term <$> t.simplifyBy steps canonical
  | .sum terms => .sum <$> Term.simplifySumBy steps canonical terms
  | .power f => do
    let f ← f.normalize canonical
    match ← f.value? with
    | some v => return .number v
    | none => return .term (← (← Term.ofFactor f).simplifyBy steps canonical)
  | .call f args => .call f <$> args.mapM canonical
  | t => pure t

end

/-- Simplification within a number of steps. -/
def Tree.simplifyWith : Nat → Tree → Except Fault Tree
  | 0, _ => throw .exhausted
  | n + 1, t => t.simplifyBy n fun s => do (← s.simplifyWith n).reduce

def Tree.canonicalWith (n : Nat) (t : Tree) : Except Fault Tree := do
  (← t.simplifyWith n).reduce

def Term.simplifySumWith (n : Nat) (terms : List Term) : Except Fault (List Term) :=
  Term.simplifySumBy n (Tree.canonicalWith n) terms

theorem Tree.simplifyWith_succ (n : Nat) (t : Tree) :
    t.simplifyWith (n + 1) = t.simplifyBy n (Tree.canonicalWith n) := rfl

theorem Tree.simplifyWith_sum (n : Nat) (terms : List Term) :
    (Tree.sum terms).simplifyWith (n + 1) = Tree.sum <$> Term.simplifySumWith n terms := rfl

def Tree.simplify (t : Tree) : Except Fault Tree := withinSteps fun n => t.simplifyWith n

def Tree.canonical (t : Tree) : Except Fault Tree := do (← t.simplify).reduce

end SymbolicAlgebra
