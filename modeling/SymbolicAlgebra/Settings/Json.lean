import SymbolicAlgebra.Decimal.Notation
import SymbolicAlgebra.Fault
import SymbolicAlgebra.Text.CodePoint

/-!
# JSON

JSON values and their reader. Beside the standard forms, the words `NaN`, `Infinity` and
`-Infinity` are numbers. Whole numbers are exact, others are doubles. Of the members of an object
with one name the last one counts, at the place of the first. An escape may name half of a surrogate
pair alone, so that strings are lists of code points. A reader takes the characters it understands
off a text and gives back the rest.
-/

namespace SymbolicAlgebra

open Text (CodePoint)

inductive Json where
  | null
  | boolean (b : Bool)
  | integer (n : Int)
  | real (x : Float)
  | string (s : List CodePoint)
  | array (items : List Json)
  | object (members : List (List CodePoint × Json))
  deriving Inhabited

namespace Json

/-- A member set at the place of its name, or at the end. -/
def setMember (name : List CodePoint) (value : Json) :
    List (List CodePoint × Json) → List (List CodePoint × Json)
  | [] => [(name, value)]
  | m :: rest => if m.1 = name then (name, value) :: rest else m :: setMember name value rest

def find? (name : String) (members : List (List CodePoint × Json)) : Option Json :=
  members.lookup (CodePoint.ofString name)

def skipBlanks (text : List Char) : List Char :=
  text.dropWhile fun c => c == ' ' || c == '\t' || c == '\n' || c == '\r'

def digitsValue (digits : List Char) : Nat :=
  digits.foldl (fun n c => 10 * n + (c.toNat - '0'.toNat)) 0

/-- The double nearest to `digits · 10 ^ exponent`, infinite beyond the largest one. -/
def decimalFloat (negative : Bool) (digits : Nat) (exponent : Int) : Float :=
  let magnitude : Float :=
    -- No double is as large as the first bound or as small as the second.
    if digits = 0 ∨ exponent + digits.log2 + 1 < -400 then 0
    else if 400 < exponent then 1 / 0
    else
      let q : Rat := if 0 ≤ exponent then mkRat (digits * Nat.pow 10 exponent.toNat) 1
        else mkRat digits (Nat.pow 10 (-exponent).toNat)
      (Binary64.nearest? q).getD (1 / 0)
  if negative then -magnitude else magnitude

/-- The digits after a point, if the text begins with a point and a digit. -/
def readFraction (text : List Char) : List Char × List Char :=
  match text with
  | '.' :: rest =>
    let digits := rest.takeWhile Char.isDigit
    if digits.isEmpty then ([], text) else (digits, rest.dropWhile Char.isDigit)
  | _ => ([], text)

/-- The power of ten after an `e`, if there is one with digits. -/
def readPower (text : List Char) : Option Int × List Char :=
  match text with
  | c :: rest =>
    if c = 'e' ∨ c = 'E' then
      let negative := rest.head? = some '-'
      let unsigned := if negative ∨ rest.head? = some '+' then rest.tail else rest
      let digits := unsigned.takeWhile Char.isDigit
      if digits.isEmpty then (none, text)
      else
        let n : Int := digitsValue digits
        (some (if negative then -n else n), unsigned.dropWhile Char.isDigit)
    else (none, text)
  | [] => (none, text)

/-- The word after which the rest of a text follows. -/
def takeWord? (word : String) (text : List Char) : Option (List Char) :=
  if word.toList.isPrefixOf text then some (text.drop word.length) else none

def orMalformed {α : Type} : Option α → Except Fault α
  | some a => pure a
  | none => throw .malformedJson

/-- A whole number, unless its digits are too many to be converted. -/
def readInteger (negative : Bool) (digits : List Char) : Except Fault Json :=
  if Decimal.maxDigits < digits.length then throw .tooManyDigits
  else
    let n : Int := digitsValue digits
    pure (integer (if negative then -n else n))

/-- A number; a whole part has no zero before other digits. -/
def readNumber (text : List Char) : Except Fault (Json × List Char) := do
  let negative := text.head? = some '-'
  let unsigned := if negative then text.tail else text
  let leading := unsigned.takeWhile Char.isDigit
  if leading.isEmpty then throw .malformedJson
  else
    let whole := if leading.head? = some '0' then ['0'] else leading
    let rest := unsigned.drop whole.length
    let (fraction, rest) := readFraction rest
    let (power, rest) := readPower rest
    if fraction.isEmpty && power.isNone then return (← readInteger negative whole, rest)
    else
      let exponent := power.getD 0 - fraction.length
      return (real (decimalFloat negative (digitsValue (whole ++ fraction)) exponent), rest)

def hexValue? (c : Char) : Option Nat :=
  if '0' ≤ c ∧ c ≤ '9' then some (c.toNat - '0'.toNat)
  else if 'a' ≤ c ∧ c ≤ 'f' then some (c.toNat - 'a'.toNat + 10)
  else if 'A' ≤ c ∧ c ≤ 'F' then some (c.toNat - 'A'.toNat + 10)
  else none

/-- The number that the next four hexadecimal digits stand for. -/
def readUnit? : List Char → Option (Nat × List Char)
  | a :: b :: c :: d :: rest => do
    let a ← hexValue? a
    let b ← hexValue? b
    let c ← hexValue? c
    let d ← hexValue? d
    return (((16 * a + b) * 16 + c) * 16 + d, rest)
  | _ => none

/-- The code point that two halves of a surrogate pair stand for. -/
def joinSurrogates (high low : Nat) : Nat := 0x10000 + (high - 0xD800) * 0x400 + (low - 0xDC00)

/-- The code point of an escaped number. A high half of a surrogate pair takes an escaped low half
after it along. -/
def readCodePoint? (text : List Char) : Option (CodePoint × List Char) := do
  let (unit, rest) ← readUnit? text
  let isHigh := 0xD800 ≤ unit ∧ unit ≤ 0xDBFF
  let next? := if isHigh then (takeWord? "\\u" rest).bind readUnit? else none
  match next? with
  | some (low, rest') =>
    if 0xDC00 ≤ low ∧ low ≤ 0xDFFF then
      return (CodePoint.ofNat (joinSurrogates unit low), rest')
    else return (CodePoint.ofNat unit, rest)
  | none => return (CodePoint.ofNat unit, rest)

/-- The character that a letter after a backslash stands for. -/
def escaped? : Char → Option Char
  | '\x22' => some '\x22'
  | '\x5c' => some '\x5c'
  | '/' => some '/'
  | 'b' => some '\x08'
  | 'f' => some '\x0c'
  | 'n' => some '\n'
  | 'r' => some '\r'
  | 't' => some '\t'
  | _ => none

/-- The rest of a string after its opening quote, within as many steps as it has characters. -/
def readString? : Nat → List Char → Option (List CodePoint × List Char)
  | 0, _ => none
  | _, [] => none
  | n + 1, c :: rest =>
    if c = '\x22' then some ([], rest)
    else if c = '\x5c' then
      match rest with
      | [] => none
      | 'u' :: rest => do
        let (d, rest) ← readCodePoint? rest
        let (s, rest) ← readString? n rest
        return (d :: s, rest)
      | e :: rest => do
        let d ← escaped? e
        let (s, rest) ← readString? n rest
        return (.char d :: s, rest)
    else if c.toNat < 0x20 then none
    else do
      let (s, rest) ← readString? n rest
      return (.char c :: s, rest)

def readText? (text : List Char) : Option (List CodePoint × List Char) :=
  match text with
  | '\x22' :: rest => readString? text.length rest
  | _ => none

def readWord? (text : List Char) : Option (Json × List Char) :=
  ((takeWord? "null" text).map fun rest => (null, rest)).or <|
  ((takeWord? "true" text).map fun rest => (boolean true, rest)).or <|
  ((takeWord? "false" text).map fun rest => (boolean false, rest)).or <|
  ((takeWord? "NaN" text).map fun rest => (real (0 / 0), rest)).or <|
  ((takeWord? "Infinity" text).map fun rest => (real (1 / 0), rest)).or <|
  ((takeWord? "-Infinity" text).map fun rest => (real (-1 / 0), rest))

mutual

def readValue : Nat → List Char → Except Fault (Json × List Char)
  | 0, _ => throw .malformedJson
  | n + 1, text =>
    match text with
    | '\x22' :: _ => orMalformed ((readText? text).map fun (s, rest) => (.string s, rest))
    | '\x5b' :: rest =>
      match skipBlanks rest with
      | '\x5d' :: rest => pure (.array [], rest)
      | rest => do
        let (items, rest) ← readItems n rest
        return (.array items, rest)
    | '\x7b' :: rest =>
      match skipBlanks rest with
      | '\x7d' :: rest => pure (.object [], rest)
      | rest => do
        let (members, rest) ← readMembers n [] rest
        return (.object members, rest)
    | _ =>
      match readWord? text with
      | some result => pure result
      | none => readNumber text

/-- The items of an array up to its end. -/
def readItems : Nat → List Char → Except Fault (List Json × List Char)
  | 0, _ => throw .malformedJson
  | n + 1, text => do
    let (item, rest) ← readValue n text
    match skipBlanks rest with
    | ',' :: rest => do
      let (items, rest) ← readItems n (skipBlanks rest)
      return (item :: items, rest)
    | '\x5d' :: rest => return ([item], rest)
    | _ => throw .malformedJson

/-- The members of an object up to its end, added to those read before. -/
def readMembers : Nat → List (List CodePoint × Json) → List Char →
    Except Fault (List (List CodePoint × Json) × List Char)
  | 0, _, _ => throw .malformedJson
  | n + 1, members, text => do
    let (name, rest) ← orMalformed (readText? text)
    match skipBlanks rest with
    | ':' :: rest => do
      let (value, rest) ← readValue n (skipBlanks rest)
      let members := setMember name value members
      match skipBlanks rest with
      | ',' :: rest => readMembers n members (skipBlanks rest)
      | '\x7d' :: rest => return (members, rest)
      | _ => throw .malformedJson
    | _ => throw .malformedJson

end

/-- The value in a text, if the text holds one and nothing else but blanks. -/
def read (text : String) : Except Fault Json := do
  let (value, rest) ← readValue (2 * text.length + 2) (skipBlanks text.toList)
  if (skipBlanks rest).isEmpty then return value else throw .malformedJson

/-- Whether a value counts as true: numbers but zero, and texts, arrays and objects that are not
empty. -/
def isTruthy : Json → Bool
  | null => false
  | boolean b => b
  | integer n => n ≠ 0
  | real x => x != 0
  | string s => !s.isEmpty
  | array items => !items.isEmpty
  | object members => !members.isEmpty

def length? : Json → Option Nat
  | string s => some s.length
  | array items => some items.length
  | object members => some members.length
  | _ => none

end Json

end SymbolicAlgebra
