import SymbolicAlgebra.Tree.Arithmetic

/-!
# Operators

The operators of formulas with their symbols, precedences and numbers of operands, and the tree that
each makes of its operands. Two of the symbols are markers that do not occur in a formula as
written: one stands between factors that are written without a star, one stands for a sign.
-/

namespace SymbolicAlgebra

inductive Operator where
  | add
  | subtract
  | multiply
  | divide
  | remainder
  /-- A product of factors that stand side by side. -/
  | juxtapose
  | raise
  | negate
  | factorial
  deriving DecidableEq, Repr

namespace Operator

def all : List Operator :=
  [add, subtract, multiply, divide, remainder, juxtapose, raise, negate, factorial]

/-- The marker of a product without a star. -/
def juxtaposition : Char := '•'

/-- The marker of a sign. -/
def negation : Char := '~'

def symbolChar : Operator → Char
  | add => '+'
  | subtract => '-'
  | multiply => '*'
  | divide => '/'
  | remainder => '%'
  | juxtapose => juxtaposition
  | raise => '^'
  | negate => negation
  | factorial => '!'

def symbol (o : Operator) : String := String.singleton o.symbolChar

def ofSymbol? (symbol : String) : Option Operator := all.find? (·.symbol = symbol)

def precedence : Operator → Nat
  | add | subtract => 1
  | multiply | divide | remainder | juxtapose => 2
  | raise => 3
  | negate | factorial => 4

def arity : Operator → Nat
  | negate | factorial => 1
  | _ => 2

/-- Of two operators of its precedence in a row, the right one binds tighter. -/
def isRightAssociative : Operator → Bool
  | raise => true
  | _ => false

/-- The tree of an operator with its operands; operands beyond those it takes have no bearing. -/
def apply : Operator → List Tree → Except Fault Tree
  | multiply, [a, b] | juxtapose, [a, b] => a.multiply b
  | raise, [a, b] => pure (.power ⟨a, b⟩)
  | remainder, [a, b] => pure (.call .remainder [a, b])
  | divide, [a, b] => a.divide b
  | add, [a, b] => a.add b
  | subtract, [a, b] => a.subtract b
  | negate, a :: _ => a.negate
  | factorial, a :: _ => pure (.call .factorial [a])
  | o, _ => throw (.misread (.surplusOperator o.symbol))

/-- The function for which an operator stands, where it stands for one. -/
def function? : Operator → Option Function
  | remainder => some .remainder
  | factorial => some .factorial
  | _ => none

def functionOfSymbol (symbol : String) : Except Fault Function :=
  match (ofSymbol? symbol).bind function? with
  | some f => pure f
  | none => throw (.unnamedOperator symbol)

def applySymbol (symbol : String) (operands : List Tree) : Except Fault Tree :=
  match ofSymbol? symbol with
  | some o => o.apply operands
  | none => throw (.misread (.unknownOperator symbol))

theorem mem_all (o : Operator) : o ∈ all := by cases o <;> decide

theorem ofSymbol?_symbol (o : Operator) : ofSymbol? o.symbol = some o := by cases o <;> decide

end Operator

end SymbolicAlgebra
