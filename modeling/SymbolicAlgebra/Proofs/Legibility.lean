import SymbolicAlgebra.Proofs.Decimals
import SymbolicAlgebra.Proofs.Rendering
import SymbolicAlgebra.Tree.Printer

/-!
# Legible trees

The text of a tree need not read back as the tree. `Tree.IsLegible` says where it does: numbers are
exact and written with all their digits, names begin with a letter or a digit, a divisor that stands
alone is no ratio, a sign that is all that is left of a coefficient does not stand before a power or a
factorial within the text, and no minus follows an exclamation mark. `Tree.IsWellFormed` holds of every
tree that is read: variables have names, functions have their arguments, sums have terms.
-/

namespace SymbolicAlgebra

mutual

def Tree.IsWellFormed : Tree → Prop
  | .number _ | .constant _ => True
  | .variable name => Lexeme.IsName name
  | .power f => f.IsWellFormed
  | .term t => t.IsWellFormed
  | .sum terms => terms ≠ [] ∧ Term.AllWellFormed terms
  | .call f args => args.length = f.arity ∧ Tree.AllWellFormed args

def Factor.IsWellFormed : Factor → Prop
  | ⟨base, exponent⟩ => base.IsWellFormed ∧ exponent.IsWellFormed

def Term.IsWellFormed : Term → Prop
  | ⟨_, _, top, bottom⟩ => Factor.AllWellFormed top ∧ Factor.AllWellFormed bottom

def Factor.AllWellFormed : List Factor → Prop
  | [] => True
  | f :: rest => f.IsWellFormed ∧ Factor.AllWellFormed rest

def Term.AllWellFormed : List Term → Prop
  | [] => True
  | t :: rest => t.IsWellFormed ∧ Term.AllWellFormed rest

def Tree.AllWellFormed : List Tree → Prop
  | [] => True
  | t :: rest => t.IsWellFormed ∧ Tree.AllWellFormed rest

end

/-- An exact number all of whose digits are written. -/
def Value.IsLegible (v : Value) : Prop := ∃ q, v = .exact q ∧ Value.IsWritten q

def Text.BeginsPlainly (w : List Char) : Prop :=
  ∃ c v, w = c :: v ∧ (Text.isLetter c = true ∨ Text.isDigit c = true ∨ c = '(')

/-- The first factor that is written is in brackets, or it is neither a power nor a factorial. -/
def Factor.LeadsWithAtom (factors : List Factor) : Prop :=
  ∀ k, Factor.precedenceOfFirst factors = .ok k →
    k ≤ Precedence.product ∨ Precedence.postfixed < k

def Term.IsAlone (t : Term) : Prop :=
  t.multiplier.isOne = true ∧ t.denominatorIsOne = .ok true ∧ ∃ f, Factor.visible t.top = .ok [f]

/-- In a text before a minus no exclamation mark comes last. -/
def Term.AllowsMinus (signed : Bool) (t : Term) : List Term → Prop
  | [] => True
  | next :: _ => next.isNegative = true →
      ∀ w, t.toChars signed = .ok w → (Text.withoutBlanks w).getLast? ≠ some '!'

mutual

/-- The text of the tree reads back, either anywhere or only at the start of a formula. -/
def Tree.IsLegible (start : Prop) : Tree → Prop
  | .number v => v.IsLegible
  | .constant _ => True
  | .variable name => Text.BeginsPlainly name.toList
  | .power f => f.IsLegible start
  | .term t => t.IsLegible start true
  | .sum terms => Term.AllLegible start true terms
  | .call _ args => Tree.AllLegible args

/-- An exponent that is one is not written. -/
def Factor.IsLegible (start : Prop) : Factor → Prop
  | ⟨base, exponent⟩ =>
    base.IsLegible (start ∧ exponent.isOne = .ok true) ∧
      (exponent.isOne = .ok true ∨ exponent.IsLegible False)

/-- A term that is zero is written as a zero. -/
def Term.IsLegible (start : Prop) (signed : Bool) : Term → Prop
  | ⟨multiplier, divisor, top, bottom⟩ =>
    multiplier.isZero = true ∨
      multiplier.IsLegible ∧ divisor.IsLegible ∧
        Factor.AllLegible (start ∧ Term.IsAlone ⟨multiplier, divisor, top, bottom⟩) top ∧
        Factor.AllLegible False bottom ∧
        (signed = true → multiplier = .negativeOne → start ∨ Factor.LeadsWithAtom top) ∧
        (signed = true → divisor = .negativeOne → Factor.LeadsWithAtom bottom) ∧
        (Factor.visible bottom = .ok [] → ∀ q, divisor = .exact q → ¬ Value.IsRatio q)

/-- Factors that are one are not written. -/
def Factor.AllLegible (start : Prop) : List Factor → Prop
  | [] => True
  | f :: rest => (f.isOne = .ok true ∨ f.IsLegible start) ∧ Factor.AllLegible start rest

/-- Terms after the first are written without their signs, which become operators. -/
def Term.AllLegible (start : Prop) (signed : Bool) : List Term → Prop
  | [] => True
  | t :: rest => t.IsLegible start signed ∧ t.AllowsMinus signed rest ∧ Term.AllLegible False false rest

def Tree.AllLegible : List Tree → Prop
  | [] => True
  | t :: rest => t.IsLegible False ∧ Tree.AllLegible rest

end

end SymbolicAlgebra
