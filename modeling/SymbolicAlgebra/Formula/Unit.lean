import SymbolicAlgebra.Formula.Operator
import SymbolicAlgebra.Text.Blank
import SymbolicAlgebra.Text.CodePoint
import SymbolicAlgebra.Text.Letter

/-!
# Units of a formula

A formula is cut into units: numbers, names, operators and brackets. Blanks do not count, and two
minus signs in a row count as a plus. Where a product is only implied, a marker is put between the
units. A minus that is a sign becomes a factor `-1` at the beginning of the formula and a negation
marker after an operator or an opening bracket.

The cut is made in one pass. `Scan` holds the units so far and the characters of the unit under way,
the latest first, and the character before; `Scan.step` takes the next character.
-/

namespace SymbolicAlgebra

/-- The code points that open and close brackets, each opening one followed by its closing one. -/
abbrev Brackets := List Text.CodePoint

namespace Brackets

def standard : Brackets := [.char '(', .char ')']

/-- The place at which a text first stands within another. -/
def find? (text : List Text.CodePoint) : List Text.CodePoint → Option Nat
  | [] => if text.isEmpty then some 0 else none
  | c :: rest => if text.isPrefixOf (c :: rest) then some 0 else (find? text rest).map (· + 1)

def place? (b : Brackets) (unit : List Char) : Option Nat := find? (Text.CodePoint.ofChars unit) b

/-- An opening bracket stands at an even place. -/
def opens (b : Brackets) (unit : List Char) : Bool := (b.place? unit).any (· % 2 = 0)

/-- A closing bracket stands at an odd place. -/
def closes (b : Brackets) (unit : List Char) : Bool := (b.place? unit).any (· % 2 = 1)

def hasChar (b : Brackets) (c : Char) : Bool := b.contains (.char c)

end Brackets

namespace Formula

def operatorChars : List Char := ['+', '-', '*', '/', '^', '%', '!', ',']

def isOperandChar (c : Char) : Bool := Text.isAlphanumeric c || c == '.'

/-- The text with two minus signs in a row written as a plus. -/
def mergeSigns : List Char → List Char
  | '-' :: '-' :: rest => '+' :: mergeSigns rest
  | c :: rest => c :: mergeSigns rest
  | [] => []

/-- The characters of a formula that count. -/
def condensed (text : List Char) : List Char := mergeSigns (Text.withoutBlanks text)

structure Scan where
  /-- The units that are complete, the latest first. -/
  units : List (List Char)
  /-- The characters of the unit under way, the latest first. -/
  current : List Char
  last : Option Char

namespace Scan

variable (b : Brackets)

def start : Scan := ⟨[], [], none⟩

def letterAfterDigit (s : Scan) (c : Char) : Bool :=
  Text.isLetter c && s.current.head?.any Text.isDigit

def afterOperator (s : Scan) : Bool :=
  s.last.any fun l => operatorChars.contains l || b.hasChar l

/-- Whether a character begins a new unit. -/
def breaks (s : Scan) (c : Char) : Bool :=
  b.hasChar c || operatorChars.contains c || s.letterAfterDigit c ||
    (s.afterOperator b && isOperandChar c)

/-- The product that is implied before a character: a star between two brackets, and a marker
between a number and a name, a number or a name and a bracket, a bracket and a number or a name. -/
def marker? (s : Scan) (c : Char) : Option Char :=
  let afterClosing := s.last.any fun l => b.closes [l]
  if afterClosing && b.opens [c] then some '*'
  else if afterClosing && isOperandChar c then some Operator.juxtaposition
  else if s.letterAfterDigit c || (s.last.any Text.isAlphanumeric && b.opens [c]) then
    some Operator.juxtaposition
  else none

/-- Ends the unit under way, if there is one, where a character begins a new one. -/
def flush (s : Scan) (c : Char) : Scan :=
  if s.breaks b c && !s.current.isEmpty then
    { s with
      units := ((s.marker? b c).map ([·])).toList ++ s.current.reverse :: s.units
      current := [] }
  else s

/-- Whether a minus is a sign here. -/
def takesSign (s : Scan) : Bool :=
  s.last.all fun l => operatorChars.contains l || b.opens [l]

def step (s : Scan) (c : Char) : Scan :=
  let t := s.flush b c
  if c = '-' && s.takesSign b then
    match s.last with
    | none => ⟨['-', '1'] :: t.units, Operator.juxtaposition :: t.current, some c⟩
    | some _ => ⟨t.units, Operator.negation :: t.current, some c⟩
  else ⟨t.units, c :: t.current, some c⟩

/-- All units in their order, with the one under way. -/
def finish (s : Scan) : List (List Char) := (s.current.reverse :: s.units).reverse

end Scan

/-- The units of a text from which blanks and double signs are gone already. -/
def unitsOfCondensed (b : Brackets) (text : List Char) : List (List Char) :=
  if text.isEmpty then [] else (text.foldl (Scan.step b) Scan.start).finish

def units (b : Brackets) (text : String) : List String :=
  (unitsOfCondensed b (condensed text.toList)).map String.ofList

end Formula

end SymbolicAlgebra
