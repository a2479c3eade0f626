import SymbolicAlgebra.Evaluate
import SymbolicAlgebra.Expand
import SymbolicAlgebra.Formula.Reading

/-!
# Equations

An equation is two trees with an equals sign between them. It is written with the sign of
inequality if both sides simplify to constant trees that stand for different numbers.
-/

namespace SymbolicAlgebra

structure Equation where
  left : Tree
  right : Tree

namespace Equation

/-- The texts on the two sides of the only equals sign. -/
def sides (text : String) : Except Fault (String × String) :=
  let left := text.toList.takeWhile (· ≠ '=')
  match text.toList.dropWhile (· ≠ '=') with
  | [] => throw (.misread .missingEquals)
  | _ :: right =>
    if right.contains '=' then throw (.misread .repeatedEquals)
    else pure (String.ofList left, String.ofList right)

/-- Reads an equation with the given reader for its sides. -/
def parseWith (read : String → Except Fault Tree) (text : String) : Except Fault Equation := do
  let (left, right) ← sides text
  return ⟨← read left, ← read right⟩

def parse (b : Brackets) (text : String) : Except Fault Equation := parseWith (Formula.parse b) text

/-- Reads an equation; a text that is none gives nothing. -/
def tryParse (b : Brackets) (text : String) : Except Fault (Option Equation) :=
  match parse b text with
  | .ok equation => pure (some equation)
  | .error (.misread _) => pure none
  | .error fault => throw fault

def mapM (f : Tree → Except Fault Tree) (equation : Equation) : Except Fault Equation := do
  return ⟨← f equation.left, ← f equation.right⟩

def simplify (equation : Equation) : Except Fault Equation := equation.mapM Tree.simplify

def expand (equation : Equation) : Except Fault Equation := equation.mapM Tree.expand

def reduce (equation : Equation) : Except Fault Equation := equation.mapM Tree.reduce

def evaluate (equation : Equation) (scope : Option Scope) : Except Fault Equation :=
  equation.mapM (·.evaluate scope)

def fill (equation : Equation) (scope : Scope) : Scope :=
  (scope.fill equation.left).fill equation.right

/-- Equations are not solved. -/
def solve (_ : Equation) : Except Fault Equation := throw .unsolvable

/-- Whether both sides are constant and stand for different numbers. -/
def isRefuted (equation : Equation) : Except Fault Bool := do
  let left ← equation.left.simplify
  let right ← equation.right.simplify
  if left.isConstant && right.isConstant then
    return !(← left.numericValue).same (← right.numericValue)
  else return false

def text (equation : Equation) : Except Fault String := do
  let sign := if ← equation.isRefuted then " ≠ " else " = "
  return (← equation.left.text) ++ sign ++ (← equation.right.text)

end Equation

end SymbolicAlgebra
