import SymbolicAlgebra.Text.Blank
import SymbolicAlgebra.Text.Digit

/-!
# Numerals

A numeral is a decimal number in text: an optional sign, digits with at most one point among them,
and an optional power of ten after an `e`. Digits may come from any script, underscores may stand
anywhere, and blanks may stand around the whole. A power of ten must leave the number within the
range of decimal numbers. The words for infinity and for an undefined number are numerals too, but
have no exact value. A ratio is two whole numbers with a slash between them, or a decimal number of
any range.
-/

namespace SymbolicAlgebra

inductive Numeral where
  | finite (negative : Bool) (digits : Nat) (exponent : Int)
  | infinite (negative : Bool)
  /-- No number; the payload, if it is not zero, says what it came from. -/
  | undefined (negative signals : Bool) (payload : Nat)
  deriving DecidableEq, Repr

/-- A decimal number as it is written: the digits before and after its point and a power of ten. -/
structure WrittenDecimal where
  whole : List Char
  fraction : List Char
  power : Int

namespace Numeral

open Text

/-- The number that a sequence of decimal digits stands for. -/
def digitsValue (digits : List Char) : Nat :=
  digits.foldl (fun n c => 10 * n + (digitValue? c).getD 0) 0

/-- The text after its sign, and whether the sign is a minus. -/
def takeSign : List Char → Bool × List Char
  | '-' :: rest => (true, rest)
  | '+' :: rest => (false, rest)
  | text => (false, text)

/-- A power of ten after the digits of a numeral, up to the end of the text. -/
def readExponent? : List Char → Option Int
  | [] => some 0
  | c :: rest =>
    if c = 'e' ∨ c = 'E' then
      let (negative, digits) := takeSign rest
      if digits ≠ [] ∧ digits.all isDecimalDigit then
        let n : Int := digitsValue digits
        some (if negative then -n else n)
      else none
    else none

/-- An unsigned number, up to the end of the text. -/
def readWritten? (text : List Char) : Option WrittenDecimal :=
  let whole := text.takeWhile isDecimalDigit
  let rest := text.dropWhile isDecimalDigit
  let pointed := rest.head? = some '.'
  let fraction := if pointed then rest.tail.takeWhile isDecimalDigit else []
  let rest := if pointed then rest.tail.dropWhile isDecimalDigit else rest
  if whole = [] ∧ fraction = [] then none
  else (readExponent? rest).map fun power => ⟨whole, fraction, power⟩

end Numeral

namespace WrittenDecimal

def digits (x : WrittenDecimal) : List Char := x.whole ++ x.fraction

def exponent (x : WrittenDecimal) : Int := x.power - x.fraction.length

/-- The exponent of the first digit that is not zero, and for zero that of the last digit. -/
def leadingExponent (x : WrittenDecimal) : Int :=
  let significant := x.digits.dropWhile fun c => Text.digitValue? c = some 0
  x.exponent + (significant.length - 1 : Nat)

/-- No digit of a decimal number stands above this power of ten, `10 ^ 18 - 1`. -/
def highestExponent : Int := 999999999999999999

/-- No digit of a decimal number stands below this power of ten, `-(2 * 10 ^ 18 - 3)`. -/
def lowestExponent : Int := -1999999999999999997

/-- A power of ten must not take the digits out of the range of decimal numbers. -/
def isInRange (x : WrittenDecimal) : Bool :=
  x.power = 0 || (lowestExponent ≤ x.exponent && x.leadingExponent ≤ highestExponent)

def toNumeral (x : WrittenDecimal) (negative : Bool) : Numeral :=
  .finite negative (Numeral.digitsValue x.digits) x.exponent

end WrittenDecimal

namespace Numeral

open Text

/-- The words for infinity and for an undefined number, in letters of either case. Digits after the
latter are its payload, and an `s` before it says that it signals. -/
def readWord? (negative : Bool) (text : List Char) : Option Numeral :=
  let letters := (text.takeWhile Char.isAlpha).map Char.toLower
  let rest := text.dropWhile Char.isAlpha
  if letters = "inf".toList ∨ letters = "infinity".toList then
    if rest = [] then some (infinite negative) else none
  else if letters = "nan".toList ∨ letters = "snan".toList then
    if rest.all isDecimalDigit then
      some (undefined negative (letters = "snan".toList) (digitsValue rest))
    else none
  else none

/-- The numeral in a text, if the whole text is one. -/
def read? (text : List Char) : Option Numeral :=
  let (negative, rest) := takeSign ((trimmed text).filter (· ≠ '_'))
  match readWritten? rest with
  | some x => if x.isInRange then some (x.toNumeral negative) else none
  | none => readWord? negative rest

/-- The exact value of a finite numeral. A zero takes no power of ten. -/
def toRat? : Numeral → Option Rat
  | finite negative digits exponent =>
    let n : Int := if negative then -digits else digits
    some (if digits = 0 then 0
      else if 0 ≤ exponent then mkRat (n * Nat.pow 10 exponent.toNat) 1
      else mkRat n (Nat.pow 10 (-exponent).toNat))
  | _ => none

/-- Whether underscores stand between digits only. -/
def separatesDigits : List Char → Bool
  | '_' :: _ => false
  | c :: '_' :: d :: rest =>
    isDecimalDigit c && isDecimalDigit d && separatesDigits (d :: rest)
  | _ :: rest => separatesDigits rest
  | [] => true

def readWhole? (text : List Char) : Option Nat :=
  let digits := text.filter (· ≠ '_')
  if digits ≠ [] ∧ digits.all isDecimalDigit then some (digitsValue digits) else none

/-- The value of a ratio of two whole numbers or of a finite numeral, in which underscores stand
between digits only. -/
def readRatio? (text : List Char) : Option Rat :=
  let (negative, rest) := takeSign (trimmed text)
  let top := rest.takeWhile (· ≠ '/')
  match rest.dropWhile (· ≠ '/') with
  | [] =>
    if separatesDigits rest then
      (readWritten? (rest.filter (· ≠ '_'))).bind fun x => (x.toNumeral negative).toRat?
    else none
  | _ :: bottom =>
    if separatesDigits top && separatesDigits bottom then
      match readWhole? top, readWhole? bottom with
      | some n, some d =>
        if d = 0 then none else some (mkRat (if negative then -(n : Int) else n) d)
      | _, _ => none
    else none

end Numeral

end SymbolicAlgebra
