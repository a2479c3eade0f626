import SymbolicAlgebra.Function
import SymbolicAlgebra.Text.Quoted

/-!
# Faults

Everything that can go wrong, as causes. A `Misreading` is a formula or an equation that cannot be
read; the other faults are values out of range, malformed trees, numerals and settings. Wording is
kept apart from the causes, in `Misreading.message` and `Fault.message?`.
-/

namespace SymbolicAlgebra

inductive Misreading where
  | missingOpening (unit : String)
  | missingClosing (unit : String)
  | surplusOperator (unit : String)
  | surplusOperands (count : Nat)
  | missingArguments (unit : String) (arity : Nat)
  | unknownUnit (unit : String)
  | unknownOperator (symbol : String)
  | missingEquals
  | repeatedEquals
  deriving DecidableEq, Repr

namespace Misreading

/-- The unit of the text that the misreading is blamed on. -/
def unit? : Misreading → Option String
  | missingOpening unit | missingClosing unit | surplusOperator unit | missingArguments unit _
  | unknownUnit unit | unknownOperator unit => some unit
  | surplusOperands _ => none
  | missingEquals | repeatedEquals => some "="

def summary : Misreading → String
  | missingOpening _ => "Missing opening parenthesis."
  | missingClosing _ => "Missing closing parenthesis."
  | surplusOperator _ => "Parsing incomplete. Too many operators."
  | surplusOperands count =>
    "Parsing incomplete. Too many operands. Overflow count = " ++ toString count ++ "."
  | missingArguments unit arity =>
    "Function " ++ unit ++ " expects " ++ toString arity ++ " arguments."
  | unknownUnit _ => "Unknown token when converting from string to Token."
  | unknownOperator _ => "Unimplemented operator functionality."
  | missingEquals => "The given object must include an equals sign!"
  | repeatedEquals => "The given object must include only one equals sign!"

/-- The summary, followed by the unit it is blamed on, quoted and in brackets. -/
def message (m : Misreading) : String :=
  match m.unit? with
  | none => m.summary
  | some unit => m.summary ++ " (" ++ Text.quoted unit ++ ")"

end Misreading

inductive Fault where
  | misread (cause : Misreading)
  /-- An exact value, or a scaled one, lies beyond the range of the doubles. -/
  | overflow
  /-- A whole number has more digits than are written or read. -/
  | tooManyDigits
  /-- A quotient lies beyond the range of the decimals that are written. -/
  | decimalOverflow
  /-- A term has a side without factors, or a sum has no terms. -/
  | emptySide
  | malformedNumeral
  /-- A numeral that stands for no number has no exact value. -/
  | undefinedNumeral
  | malformedRatio
  /-- Something that is neither a number nor a numeral stands where a number is needed. -/
  | notNumeric
  | unnamedOperator (symbol : String)
  /-- Nothing stands after a function, not even the marker before its bracket. -/
  | missingMarker (function : Function)
  /-- A function is computed from more or fewer arguments than it has. -/
  | argumentCount (function : Function) (count : Nat)
  /-- A function written as an operator has more or fewer operands than the operator. -/
  | operandCount (function : Function) (count : Nat)
  | unsolvable
  | oddBrackets
  /-- The brackets setting is of a kind that has no length. -/
  | unmeasuredBrackets
  /-- The brackets setting is of a kind in which no text can be looked up. -/
  | unsearchableBrackets
  | invalidEncoding
  | malformedJson
  | unknownLevel
  /-- The log level is neither a name nor a number. -/
  | untypedLevel
  /-- The allotted number of rewriting steps did not suffice. -/
  | exhausted
  deriving DecidableEq, Repr

/-- The wording of the faults that have one. -/
def Fault.message? : Fault → Option String
  | .misread cause => some cause.message
  | .unsolvable => some "solving equations is not supported"
  | .oddBrackets => some "The brackets string must be an even amount of characters."
  | _ => none

end SymbolicAlgebra
