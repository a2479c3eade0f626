import SymbolicAlgebra.Decimal.Numeral
import SymbolicAlgebra.Tree.Arithmetic
import SymbolicAlgebra.Tree.Printer

/-!
# Literals

Trees may be combined with plain numbers and with texts that spell a number. A `Literal` is such a
plain operand, and `Operand` is a literal or a tree. Whole numbers, truth values, numerals and
ratios are exact; a double is not.
-/

namespace SymbolicAlgebra

inductive Literal where
  | integer (n : Int)
  | truth (b : Bool)
  /-- A text that should spell a number. -/
  | numeral (text : String)
  | decimal (x : Numeral)
  | ratio (q : Rat)
  | float (x : Float)
  | nothing
  | emptyList

namespace Literal

def readDecimal (text : String) : Except Fault Numeral :=
  match Numeral.read? text.toList with
  | some x => pure x
  | none => throw .malformedNumeral

def readRatio (text : String) : Except Fault Rat :=
  match Numeral.readRatio? text.toList with
  | some q => pure q
  | none => throw .malformedRatio

def decimalValue (x : Numeral) : Except Fault Value :=
  match x, x.toRat? with
  | _, some q => pure (.exact q)
  | .undefined .., none => throw .undefinedNumeral
  | _, none => throw .overflow

/-- The value of a literal, if it is a number or spells one. -/
def value : Literal → Except Fault Value
  | integer n => pure (.exact n)
  | truth b => pure (.exact (if b then 1 else 0))
  | numeral text => do decimalValue (← readDecimal text)
  | decimal x => decimalValue x
  | ratio q => pure (.exact q)
  | float x => pure (.float x)
  | nothing | emptyList => throw .notNumeric

/-- A decimal number as it was given: by position while it is written with no zeros filled in after
its digits and few before, and otherwise with a power of ten. The payload of an undefined number
follows the word for it. -/
def decimalChars : Numeral → List Char
  | .finite negative digits exponent =>
    let x : Decimal := ⟨digits, exponent⟩
    Value.signed negative
      (if exponent ≤ 0 ∧ -6 ≤ x.leadingExponent then x.positional else x.scientific 'E' 1)
  | .infinite negative => Value.signed negative "Infinity".toList
  | .undefined negative signals payload =>
    Value.signed negative ((if signals then "sNaN" else "NaN").toList ++
      if payload = 0 then [] else Decimal.digitChars payload)

def text : Literal → Except Fault String
  | integer n => String.ofList <$> Value.integerChars n
  | truth b => pure (if b then "True" else "False")
  | numeral text => pure text
  | decimal x => pure (String.ofList (decimalChars x))
  | ratio q =>
    String.ofList <$> if q.den = 1 then Value.integerChars q.num else Value.ratioChars q.num q.den
  | float x => pure (String.ofList (Value.floatChars x))
  | nothing => pure "None"
  | emptyList => pure "[]"

end Literal

inductive Operand where
  | tree (t : Tree)
  | literal (l : Literal)

namespace Operand

def toTree : Operand → Except Fault Tree
  | tree t => pure t
  | literal l => .number <$> l.value

/-- What a variable is bound to by an operand; nothing at all lists it without a value. -/
def binding? : Operand → Except Fault (Option Tree)
  | literal .nothing => pure none
  | operand => some <$> operand.toTree

/-- Whether two operands are like trees; a literal is like none. -/
def same : Operand → Operand → Bool
  | tree s, tree t => s.same t
  | _, _ => false

/-- The value of an operand that is to be a coefficient. -/
def coefficient : Operand → Except Fault Value
  | tree (.number v) => pure v
  | tree _ => throw .notNumeric
  | literal l => l.value

def textAt (operand : Operand) (place : Int) : Except Fault String :=
  match operand with
  | tree t => t.textAt place
  | literal l => l.text

end Operand

/-- A term from operands: the coefficients must be numeric, and anything may be a factor. -/
def Term.ofOperands (multiplier divisor : Operand) (top bottom : List Tree) :
    Except Fault Term := do
  let (m, top) ← Term.collect (← multiplier.coefficient) (top.map Tree.toFactor)
  let (d, bottom) ← Term.collect (← divisor.coefficient) (bottom.map Tree.toFactor)
  return ⟨m, d, Term.side top, Term.side bottom⟩

namespace Operand

def add (a b : Operand) : Except Fault Tree := do (← a.toTree).add (← b.toTree)

/-- The second operand is converted and its sign changed before they are added. -/
def subtract (a b : Operand) : Except Fault Tree := do
  let a ← a.toTree
  let b ← b.toTree
  a.subtract b

def multiply (a b : Operand) : Except Fault Tree := do (← a.toTree).multiply (← b.toTree)

def divide (a b : Operand) : Except Fault Tree := do (← a.toTree).divide (← b.toTree)

def raise (a b : Operand) : Except Fault Tree := do
  return .power ⟨← a.toTree, ← b.toTree⟩

end Operand

end SymbolicAlgebra
