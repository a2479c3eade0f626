import SymbolicAlgebra.Text.CodePoint
import SymbolicAlgebra.Text.Printable

/-!
# Quoted text

A message cites a piece of text between single quotes, or between double quotes when the text holds
a single quote and no double one. The quote in use and the backslash are escaped, line breaks and
tabs have a letter each, and any other unprintable character, like half of a surrogate pair alone,
is written by its code point in two, four or eight hexadecimal digits.
-/

namespace SymbolicAlgebra.Text

def singleQuote : Char := '\x27'

def doubleQuote : Char := '\x22'

def backslash : Char := '\x5c'

/-- The lowest `width` hexadecimal digits of a number, the highest first. -/
def hexadecimal (width n : Nat) : List Char :=
  (List.range width).reverse.map fun i => Nat.digitChar (n / Nat.pow 16 i % 16)

def codePointEscape (n : Nat) : List Char :=
  if n ≤ 0xFF then backslash :: 'x' :: hexadecimal 2 n
  else if n ≤ 0xFFFF then backslash :: 'u' :: hexadecimal 4 n
  else backslash :: 'U' :: hexadecimal 8 n

/-- How one character is written between the given quotes. -/
def quotedChar (quote c : Char) : List Char :=
  if c = quote ∨ c = backslash then [backslash, c]
  else if c = '\t' then [backslash, 't']
  else if c = '\n' then [backslash, 'n']
  else if c = '\r' then [backslash, 'r']
  else if isPrintable c then [c]
  else codePointEscape c.toNat

def quotedCodePoint (quote : Char) : CodePoint → List Char
  | .char c => quotedChar quote c
  | .surrogate place => codePointEscape (CodePoint.surrogate place).toNat

def quoteFor (text : List CodePoint) : Char :=
  if .char singleQuote ∈ text ∧ .char doubleQuote ∉ text then doubleQuote else singleQuote

def quotedChars (text : List CodePoint) : List Char :=
  quoteFor text :: text.flatMap (quotedCodePoint (quoteFor text)) ++ [quoteFor text]

def quotedCodePoints (text : List CodePoint) : String := String.ofList (quotedChars text)

def quoted (text : String) : String := quotedCodePoints (CodePoint.ofString text)

def quotedList (texts : List String) : String :=
  "[" ++ ", ".intercalate (texts.map quoted) ++ "]"

end SymbolicAlgebra.Text
