import SymbolicAlgebra.Formula.Postfix

/-!
# The grammar of formulas

A `Phrase` is a derivation tree of the grammar over lexemes, at one of five tiers: sums of products
of powers of unary phrases of atoms. `Phrase.lexemes` is the sentence that it derives,
`Phrase.postorder` lists its operands, operators and functions in postorder, and `Phrase.tree`
builds its tree from the trees of its parts.
-/

namespace SymbolicAlgebra

inductive Tier where
  | sum
  | product
  | power
  | unary
  | atom

namespace Operator

def additive : List Operator := [add, subtract]

def multiplicative : List Operator := [multiply, divide, remainder, juxtapose]

end Operator

mutual

/-- A derivation at a tier. The constructors that name a tier pass a phrase of that tier on. -/
inductive Phrase : Tier → Type where
  | operand (text : String) (value : Tree) : Phrase .atom
  | bracketed (o c : String) (s : Phrase .sum) : Phrase .atom
  | call (f : Function) (o c : String) (args : Arguments f.arity) : Phrase .atom
  | atom (a : Phrase .atom) : Phrase .unary
  | negation (a : Phrase .atom) : Phrase .unary
  | factorial (u : Phrase .unary) : Phrase .unary
  | unary (u : Phrase .unary) : Phrase .power
  | raise (u : Phrase .unary) (p : Phrase .power) : Phrase .power
  | power (p : Phrase .power) : Phrase .product
  | multiply (l : Phrase .product) (o : Operator) (h : o ∈ Operator.multiplicative)
      (r : Phrase .power) : Phrase .product
  | product (p : Phrase .product) : Phrase .sum
  | add (l : Phrase .sum) (o : Operator) (h : o ∈ Operator.additive) (r : Phrase .product) :
      Phrase .sum

/-- So many sums with separators between them. -/
inductive Arguments : Nat → Type where
  | last (s : Phrase .sum) : Arguments 1
  | cons {n : Nat} (s : Phrase .sum) (rest : Arguments n) : Arguments (n + 1)

end

mutual

/-- The lexemes that a phrase derives. A function stands before the marker of a product. -/
def Phrase.lexemes {t : Tier} : Phrase t → List Lexeme
  | .operand text value => [.operand text value]
  | .bracketed o c s => .opening o :: (s.lexemes ++ [.closing c])
  | .call f o c args =>
    .function f :: .operator .juxtapose :: .opening o :: (args.lexemes ++ [.closing c])
  | .atom a => a.lexemes
  | .negation a => .operator .negate :: a.lexemes
  | .factorial u => u.lexemes ++ [.operator .factorial]
  | .unary u => u.lexemes
  | .raise u p => u.lexemes ++ .operator .raise :: p.lexemes
  | .power p => p.lexemes
  | .multiply l o _ r => l.lexemes ++ .operator o :: r.lexemes
  | .product p => p.lexemes
  | .add l o _ r => l.lexemes ++ .operator o :: r.lexemes

def Arguments.lexemes {n : Nat} : Arguments n → List Lexeme
  | .last s => s.lexemes
  | .cons s rest => s.lexemes ++ .separator :: rest.lexemes

end

mutual

def Phrase.postorder {t : Tier} : Phrase t → List Lexeme
  | .operand text value => [.operand text value]
  | .bracketed _ _ s => s.postorder
  | .call f _ _ args => args.postorder ++ [.function f]
  | .atom a => a.postorder
  | .negation a => a.postorder ++ [.operator .negate]
  | .factorial u => u.postorder ++ [.operator .factorial]
  | .unary u => u.postorder
  | .raise u p => u.postorder ++ p.postorder ++ [.operator .raise]
  | .power p => p.postorder
  | .multiply l o _ r => l.postorder ++ r.postorder ++ [.operator o]
  | .product p => p.postorder
  | .add l o _ r => l.postorder ++ r.postorder ++ [.operator o]

def Arguments.postorder {n : Nat} : Arguments n → List Lexeme
  | .last s => s.postorder
  | .cons s rest => s.postorder ++ rest.postorder

end

mutual

/-- The tree of a phrase, or the first fault of an operator from the left. -/
def Phrase.tree {t : Tier} : Phrase t → Except Fault Tree
  | .operand _ value => pure value
  | .bracketed _ _ s => s.tree
  | .call f _ _ args => do return .call f (← args.trees)
  | .atom a => a.tree
  | .negation a => do Operator.negate.apply [← a.tree]
  | .factorial u => do Operator.factorial.apply [← u.tree]
  | .unary u => u.tree
  | .raise u p => do Operator.raise.apply [← u.tree, ← p.tree]
  | .power p => p.tree
  | .multiply l o _ r => do o.apply [← l.tree, ← r.tree]
  | .product p => p.tree
  | .add l o _ r => do o.apply [← l.tree, ← r.tree]

def Arguments.trees {n : Nat} : Arguments n → Except Fault (List Tree)
  | .last s => do return [← s.tree]
  | .cons s rest => do return (← s.tree) :: (← rest.trees)

end

end SymbolicAlgebra
