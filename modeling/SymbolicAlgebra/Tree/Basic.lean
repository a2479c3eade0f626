import SymbolicAlgebra.Constant
import SymbolicAlgebra.Value.Basic

/-!
# Expression trees

A formula is a tree of numbers, constants, variables, powers, terms, sums and calls. A `Factor` is a
base with an exponent. A `Term` is `multiplier · top / (divisor · bottom)` with factors on top and
bottom, and a sum is a list of terms. A side of a term without factors is written as the placeholder
`1 ^ 1`, and a sum has at least one term: `Term.ofSides` and `Tree.ofTerms` refuse to build others.

`Tree.same` is the likeness of trees, which compares numbers by what they stand for. `Tree.nodes`
lists a tree in preorder.
-/

namespace SymbolicAlgebra

mutual

inductive Tree where
  | number (v : Value)
  | constant (c : Constant)
  | variable (name : String)
  | power (f : Factor)
  | term (t : Term)
  | sum (terms : List Term)
  | call (f : Function) (args : List Tree)

structure Factor where
  base : Tree
  exponent : Tree

structure Term where
  multiplier : Value
  divisor : Value
  top : List Factor
  bottom : List Factor

end

instance : Inhabited Tree := ⟨.number .zero⟩

mutual

/-- The number of nodes of a tree, coefficients included. -/
def Tree.size : Tree → Nat
  | .number _ | .constant _ | .variable _ => 1
  | .power f => f.size
  | .term t => t.size
  | .sum terms => 1 + Term.sizes terms
  | .call _ args => 1 + Tree.sizes args

def Factor.size : Factor → Nat
  | ⟨base, exponent⟩ => 1 + base.size + exponent.size

def Term.size : Term → Nat
  | ⟨_, _, top, bottom⟩ => 3 + Factor.sizes top + Factor.sizes bottom

def Factor.sizes : List Factor → Nat
  | [] => 0
  | f :: rest => f.size + Factor.sizes rest

def Term.sizes : List Term → Nat
  | [] => 0
  | t :: rest => t.size + Term.sizes rest

def Tree.sizes : List Tree → Nat
  | [] => 0
  | t :: rest => t.size + Tree.sizes rest

end

mutual

/-- The same tree, where numbers of either kind are the same if they stand for the same number. -/
def Tree.same : Tree → Tree → Bool
  | .number a, .number b => a.same b
  | .constant c, .constant d => c = d
  | .variable x, .variable y => x = y
  | .power f, .power g => f.same g
  | .term s, .term t => s.same t
  | .sum ss, .sum ts => Term.sameAll ss ts
  | .call f args, .call g args' => f = g && Tree.sameAll args args'
  | _, _ => false
termination_by structural t => t

def Factor.same : Factor → Factor → Bool
  | ⟨b, e⟩, ⟨b', e'⟩ => b.same b' && e.same e'
termination_by structural f => f

def Term.same : Term → Term → Bool
  | ⟨m, d, top, bottom⟩, ⟨m', d', top', bottom'⟩ =>
    m.same m' && d.same d' && Factor.sameAll top top' && Factor.sameAll bottom bottom'
termination_by structural t => t

def Factor.sameAll : List Factor → List Factor → Bool
  | [], [] => true
  | f :: fs, g :: gs => f.same g && Factor.sameAll fs gs
  | _, _ => false
termination_by structural fs => fs

def Term.sameAll : List Term → List Term → Bool
  | [], [] => true
  | s :: ss, t :: ts => s.same t && Term.sameAll ss ts
  | _, _ => false
termination_by structural ss => ss

def Tree.sameAll : List Tree → List Tree → Bool
  | [], [] => true
  | s :: ss, t :: ts => s.same t && Tree.sameAll ss ts
  | _, _ => false
termination_by structural ss => ss

end

instance : BEq Tree := ⟨Tree.same⟩

instance : BEq Factor := ⟨Factor.same⟩

instance : BEq Term := ⟨Term.same⟩

namespace Tree

def zero : Tree := number .zero

def one : Tree := number .one

def negativeOne : Tree := number .negativeOne

def undefined : Tree := number .undefined

/-- A tree as a factor: a power is one already, anything else has the exponent one. -/
def toFactor : Tree → Factor
  | power f => f
  | t => ⟨t, one⟩

/-- A sum, which needs a term. -/
def ofTerms (terms : List Term) : Except Fault Tree :=
  if terms.isEmpty then throw .emptySide else pure (sum terms)

end Tree

/-- The factor that stands on a side of a term without factors. -/
def Factor.placeholder : Factor := ⟨.one, .one⟩

namespace Term

/-- A term, which needs a factor on either side. -/
def ofSides (multiplier divisor : Value) (top bottom : List Factor) : Except Fault Term :=
  if top.isEmpty || bottom.isEmpty then throw .emptySide
  else pure ⟨multiplier, divisor, top, bottom⟩

/-- The factors of a side, or the placeholder if there are none. -/
def side : List Factor → List Factor
  | [] => [Factor.placeholder]
  | factors => factors

def ofValue (v : Value) : Term := ⟨v, .one, side [], side []⟩

def zero : Term := ofValue .zero

theorem side_ne_nil (factors : List Factor) : side factors ≠ [] := by
  cases factors <;> simp [side]

theorem ofSides_side (m d : Value) (top bottom : List Factor) :
    ofSides m d (side top) (side bottom) = .ok ⟨m, d, side top, side bottom⟩ := by
  simp [ofSides, side_ne_nil, pure, Except.pure]

end Term

mutual

/-- The tree and all trees within it, each before those within it. The coefficients of a term are
not among them. -/
def Tree.nodes : Tree → List Tree
  | .power f => f.nodes
  | .term t => t.nodes
  | .sum terms => .sum terms :: Term.nodesOfAll terms
  | .call f args => .call f args :: Tree.nodesOfAll args
  | t => [t]

def Factor.nodes : Factor → List Tree
  | ⟨base, exponent⟩ => .power ⟨base, exponent⟩ :: (base.nodes ++ exponent.nodes)

def Term.nodes : Term → List Tree
  | ⟨m, d, top, bottom⟩ =>
    .term ⟨m, d, top, bottom⟩ :: (Factor.nodesOfAll top ++ Factor.nodesOfAll bottom)

def Factor.nodesOfAll : List Factor → List Tree
  | [] => []
  | f :: rest => f.nodes ++ Factor.nodesOfAll rest

def Term.nodesOfAll : List Term → List Tree
  | [] => []
  | t :: rest => t.nodes ++ Term.nodesOfAll rest

def Tree.nodesOfAll : List Tree → List Tree
  | [] => []
  | t :: rest => t.nodes ++ Tree.nodesOfAll rest

end

/-- The names of the variables of a tree, one for each place where one stands, in preorder. -/
def Tree.variables (t : Tree) : List String :=
  t.nodes.filterMap fun
    | .variable name => some name
    | _ => none

end SymbolicAlgebra
