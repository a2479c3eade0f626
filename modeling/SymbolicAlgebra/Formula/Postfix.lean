import SymbolicAlgebra.Formula.Lexeme

/-!
# Postfix order

The lexemes of a formula are brought into postfix order, with every operator and function after its
operands, by way of a stack of operators, functions and opening brackets. A tree is then built from
them on a stack of operands.
-/

namespace SymbolicAlgebra

namespace Lexeme

/-- Whether an operator on the stack takes its operands before an incoming one does. -/
def yields (incoming : Operator) : Lexeme → Bool
  | operator top =>
    incoming.precedence < top.precedence ||
      (top.precedence = incoming.precedence && !incoming.isRightAssociative)
  | _ => false

/-- Unloads the stack at the end of a formula onto the output so far, the latest first. -/
def unload (stack output : List Lexeme) : Except Fault (List Lexeme) :=
  match stack.find? isOpening with
  | some bracket => throw (.misread (.missingClosing bracket.text))
  | none => pure (output.reverse ++ stack)

/-- Unloads the stack down to the opening bracket of a closing one, and with it the function whose
arguments the brackets hold. -/
def close (text : String) (stack output : List Lexeme) :
    Except Fault (List Lexeme × List Lexeme) :=
  let output := (stack.takeWhile (!·.isOpening)).reverse ++ output
  match stack.dropWhile (!·.isOpening) with
  | [] => throw (.misread (.missingOpening text))
  | _ :: function f :: stack => pure (stack, function f :: output)
  | _ :: stack => pure (stack, output)

/-- Takes the lexemes in turn, with the stack and the output so far, the latest first in both. The
lexeme after a function is the marker before its bracket, which is dropped. -/
def shunt : List Lexeme → List Lexeme → List Lexeme → Except Fault (List Lexeme)
  | [], stack, output => unload stack output
  | operand text value :: rest, stack, output => shunt rest stack (operand text value :: output)
  | unknown text :: rest, stack, output => shunt rest stack (unknown text :: output)
  | function f :: _ :: rest, stack, output => shunt rest (function f :: stack) output
  | [function f], _, _ => throw (.missingMarker f)
  | operator o :: rest, stack, output =>
    shunt rest (operator o :: stack.dropWhile (yields o))
      ((stack.takeWhile (yields o)).reverse ++ output)
  | separator :: rest, stack, output =>
    shunt rest (stack.dropWhile isOperator) ((stack.takeWhile isOperator).reverse ++ output)
  | opening text :: rest, stack, output => shunt rest (opening text :: stack) output
  | closing text :: rest, stack, output => do
    let (stack, output) ← close text stack output
    shunt rest stack output

/-- The lexemes in postfix order, without brackets and separators. -/
def toPostfix (lexemes : List Lexeme) : Except Fault (List Lexeme) := shunt lexemes [] []

/-- The latest of the operands in their order, and the earlier ones, if there are so many. -/
def takeOperands? (count : Nat) (operands : List Tree) : Option (List Tree × List Tree) :=
  let taken := operands.take count
  if taken.length = count then some (taken.reverse, operands.drop count) else none

/-- Takes a lexeme in postfix order, with the operands so far, the latest first. -/
def buildStep (operands : List Tree) : Lexeme → Except Fault (List Tree)
  | operand _ value => pure (value :: operands)
  | operator o =>
    match takeOperands? o.arity operands with
    | none => throw (.misread (.surplusOperator o.symbol))
    | some (taken, rest) => do return (← o.apply taken) :: rest
  | function f =>
    match takeOperands? f.arity operands with
    | none => throw (.misread (.missingArguments f.name f.arity))
    | some (taken, rest) => pure (.call f taken :: rest)
  | l => throw (.misread (.unknownUnit l.text))

/-- The tree of lexemes in postfix order; nothing at all stands for zero. -/
def build (postfixed : List Lexeme) : Except Fault Tree := do
  match ← postfixed.foldlM buildStep [] with
  | [] => return .zero
  | [t] => return t
  | operands => throw (.misread (.surplusOperands operands.length))

end Lexeme

end SymbolicAlgebra
