import SymbolicAlgebra.Decimal.Numeral
import SymbolicAlgebra.Formula.Unit

/-!
# Lexemes

What the units of a formula are. A unit is an operator, a separator or a bracket before it is
anything else, and a number before it is a name. The name of a function stands for the function only
before a bracket, and otherwise for the variable of that name if it can be one.
-/

namespace SymbolicAlgebra

inductive Lexeme where
  | operand (text : String) (value : Tree)
  | operator (o : Operator)
  | function (f : Function)
  | opening (text : String)
  | closing (text : String)
  | separator
  | unknown (text : String)

namespace Lexeme

def text : Lexeme → String
  | operand text _ | opening text | closing text | unknown text => text
  | operator o => o.symbol
  | function f => f.name
  | separator => ","

def isOperator : Lexeme → Bool
  | operator _ => true
  | _ => false

def isOpening : Lexeme → Bool
  | opening _ => true
  | _ => false

/-- A number as it is written in a formula: an optional minus and digits with at most one point
among them. -/
def isNumber (unit : List Char) : Bool :=
  let magnitude := if unit.head? = some '-' then unit.tail else unit
  let whole := magnitude.takeWhile Text.isDecimalDigit
  match magnitude.dropWhile Text.isDecimalDigit with
  | [] => !whole.isEmpty
  | '.' :: fraction => fraction.all Text.isDecimalDigit && !(whole.isEmpty && fraction.isEmpty)
  | _ => false

def numberValue? (unit : List Char) : Option Rat :=
  if isNumber unit then (Numeral.read? unit).bind Numeral.toRat? else none

/-- A variable: a letter or another character of names that is no decimal digit, alone or with a
number after an underscore. -/
def isVariable : List Char → Bool
  | [] => false
  | c :: rest =>
    Text.isAlphanumeric c && !Text.isDecimalDigit c &&
      match rest with
      | [] => true
      | '_' :: index => !index.isEmpty && index.all Text.isDecimalDigit
      | _ => false

/-- The lexeme of a unit, given the two units after it. -/
def ofUnit (b : Brackets) (unit : String) (following : List String) : Lexeme :=
  match Operator.ofSymbol? unit with
  | some o => operator o
  | none =>
    if unit = "," then separator
    else if b.opens unit.toList then opening unit
    else if b.closes unit.toList then closing unit
    else
      match numberValue? unit.toList with
      | some q => operand unit (.number (.exact q))
      | none =>
        match calledFunction? with
        | some f => function f
        | none =>
          match Constant.ofName? unit with
          | some c => operand unit (.constant c)
          | none => if isVariable unit.toList then operand unit (.variable unit) else unknown unit
where
  calledFunction? : Option Function :=
    match following with
    | marker :: bracket :: _ =>
      if marker = Operator.juxtapose.symbol && b.opens bracket.toList then Function.ofName? unit
      else none
    | _ => none

def ofUnits (b : Brackets) : List String → List Lexeme
  | [] => []
  | unit :: rest => ofUnit b unit rest :: ofUnits b rest

theorem length_ofUnits (b : Brackets) (units : List String) :
    (ofUnits b units).length = units.length := by
  induction units with
  | nil => rfl
  | cons unit rest ih => simp [ofUnits, ih]

end Lexeme

end SymbolicAlgebra
