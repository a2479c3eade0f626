import SymbolicAlgebra.Text.Digit
import SymbolicAlgebra.Tree.Predicate
import SymbolicAlgebra.Value.Printer

/-!
# The text of a tree

A tree is written with brackets around a part only where the part binds no tighter than its place
asks for. A coefficient stands right before the factors it multiplies, with a star between them only
before a digit or a point, factors are joined by stars, and a coefficient of one is left out. In a
sum each term after the first is written with its sign as the operator before it.
-/

namespace SymbolicAlgebra

-- How tightly the texts of trees bind, from the loosest to the tightest.
namespace Precedence

def anything : Nat := 0

def sum : Nat := 10

def negative : Nat := 15

def product : Nat := 20

def power : Nat := 30

def postfixed : Nat := 40

def atom : Nat := 1000

end Precedence

/-- A number that is written as a ratio binds like a product. -/
def Value.precedence (v : Value) : Nat :=
  if v.isUndefined then Precedence.atom
  else if v.isNegative then Precedence.negative
  else if v.isExact && v.decimalPlaces?.isNone then Precedence.product
  else Precedence.atom

def Function.precedence : Function → Nat
  | remainder => Precedence.product
  | factorial => Precedence.postfixed
  | _ => Precedence.atom

/-- The factors that are written: all but those that are one. -/
def Factor.visible (factors : List Factor) : Except Fault (List Factor) :=
  factors.filterM fun f => do return !(← f.isOne)

mutual

def Tree.precedence : Tree → Except Fault Nat
  | .number v => pure v.precedence
  | .constant _ | .variable _ => pure Precedence.atom
  | .power f => f.precedence
  | .term t => t.precedence
  | .sum _ => pure Precedence.sum
  | .call f _ => pure f.precedence

def Factor.precedence : Factor → Except Fault Nat
  | ⟨base, exponent⟩ => do
    if ← exponent.isOne then base.precedence else return Precedence.power

def Term.precedence : Term → Except Fault Nat
  | ⟨multiplier, divisor, top, bottom⟩ => do
    let visible ← Factor.visible top
    let whole ← Term.denominatorIsOne ⟨multiplier, divisor, top, bottom⟩
    if !whole || multiplier.isNegative then return Precedence.product
    else if !visible.isEmpty && !multiplier.isOne then return Precedence.product
    else if 1 < visible.length then return Precedence.product
    else if visible.isEmpty then return multiplier.precedence
    else Factor.precedenceOfFirst top

/-- The precedence of the first factor that is written. -/
def Factor.precedenceOfFirst : List Factor → Except Fault Nat
  | [] => pure Precedence.atom
  | f :: rest => do if ← f.isOne then Factor.precedenceOfFirst rest else f.precedence

end

def bracketed (text : List Char) : List Char := '(' :: text ++ [')']

/-- A part of a text, in brackets unless it binds tighter than its place. -/
def embed (place : Nat) (precedence : Except Fault Nat) (text : Except Fault (List Char)) :
    Except Fault (List Char) := do
  if place < (← precedence) then text else return bracketed (← text)

/-- The text of a coefficient; a one is left out, up to its sign, unless it stands alone. -/
def Value.coefficientChars (v : Value) (alone signed : Bool) : Except Fault (List Char) :=
  if v.abs.isOne && !alone then pure (if signed && v.isNegative then ['-'] else [])
  else if signed then v.toChars else v.abs.toChars

/-- The text of the coefficient of a side of a term. A one is left out unless it must be shown. -/
def Value.leadingChars (v : Value) (shown alone signed : Bool) : Except Fault (List Char) :=
  if !v.isOne || shown then v.coefficientChars alone signed else pure []

/-- A coefficient before the texts of factors. A star stands between them if the factors begin like
a number, unless the coefficient is a mere sign. -/
def juxtapose (coefficient : List Char) (factors : List (List Char)) : List Char :=
  let body := ['*'].intercalate factors
  match coefficient, body with
  | [], body => body
  | coefficient, [] => coefficient
  | coefficient, c :: rest =>
    if coefficient = ['-'] || !(Text.isDigit c || c == '.') then coefficient ++ c :: rest
    else coefficient ++ '*' :: c :: rest

mutual

def Tree.toChars : Tree → Except Fault (List Char)
  | .number v => v.toChars
  | .constant c => pure c.symbol.toList
  | .variable name => pure name.toList
  | .power f => f.toChars
  | .term t => t.toChars true
  | .sum [] => pure []
  | .sum (t :: rest) => do return (← t.toChars true) ++ (← Term.laterChars rest)
  | .call .remainder [a, b] => do
    let left ← embed Precedence.product a.precedence a.toChars
    let right ← embed Precedence.product b.precedence b.toChars
    return left ++ " % ".toList ++ right
  | .call .remainder args => throw (.operandCount .remainder args.length)
  | .call .factorial (a :: _) => do
    return (← embed Precedence.postfixed a.precedence a.toChars) ++ ['!']
  | .call .factorial [] => throw (.operandCount .factorial 0)
  | .call f args => do
    return f.name.toList ++ bracketed (", ".toList.intercalate (← Tree.argumentChars args))

def Factor.toChars : Factor → Except Fault (List Char)
  | ⟨base, exponent⟩ => do
    if ← exponent.isOne then embed Precedence.anything base.precedence base.toChars
    else
      let left ← embed Precedence.power base.precedence base.toChars
      let right ← embed Precedence.power exponent.precedence exponent.toChars
      return left ++ '^' :: right

/-- The text of a term. Without its sign, the magnitudes of the coefficients are written. -/
def Term.toChars (signed : Bool) : Term → Except Fault (List Char)
  | ⟨multiplier, divisor, top, bottom⟩ => do
    if multiplier.isZero then return ['0']
    let top' ← Factor.visible top
    let bottom' ← Factor.visible bottom
    let fractional := !(← Term.denominatorIsOne ⟨multiplier, divisor, top, bottom⟩)
    let coefficient ← multiplier.leadingChars (fractional && top'.isEmpty) top'.isEmpty signed
    let single := multiplier.isOne && !fractional && top'.length == 1
    let pieces ←
      Factor.visibleChars (if single then Precedence.anything else Precedence.product) top
    let numerator := juxtapose coefficient pieces
    if fractional then
      let coefficient ← divisor.leadingChars bottom'.isEmpty bottom'.isEmpty signed
      let pieces ← Factor.visibleChars Precedence.product bottom
      let denominator := juxtapose coefficient pieces
      let parts := pieces.length + if coefficient.isEmpty then 0 else 1
      return numerator ++ '/' :: if 1 < parts then bracketed denominator else denominator
    else return if numerator.isEmpty then ['1'] else numerator

/-- The texts of the factors that are written. -/
def Factor.visibleChars (place : Nat) : List Factor → Except Fault (List (List Char))
  | [] => pure []
  | f :: rest => do
    if ← f.isOne then Factor.visibleChars place rest
    else
      let text ← embed place f.precedence f.toChars
      return text :: (← Factor.visibleChars place rest)

/-- The terms of a sum after the first, each with its sign before it. -/
def Term.laterChars : List Term → Except Fault (List Char)
  | [] => pure []
  | t :: rest => do
    let text ← t.toChars false
    let operator := if t.isNegative then " - ".toList else " + ".toList
    return operator ++ text ++ (← Term.laterChars rest)

def Tree.argumentChars : List Tree → Except Fault (List (List Char))
  | [] => pure []
  | t :: rest => do
    let text ← embed Precedence.anything t.precedence t.toChars
    return text :: (← Tree.argumentChars rest)

end

namespace Tree

/-- The text of a tree at a place that asks for the given precedence. -/
def textAt (t : Tree) (place : Int) : Except Fault String := do
  return String.ofList (← embed place.toNat t.precedence t.toChars)

def text (t : Tree) : Except Fault String := do return String.ofList (← t.toChars)

end Tree

end SymbolicAlgebra
