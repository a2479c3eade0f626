import Mathlib.Algebra.MvPolynomial.Funext
import Mathlib.RingTheory.MvPolynomial.Tower
import SymbolicAlgebra.Expand
import SymbolicAlgebra.Proofs.Building
import SymbolicAlgebra.Proofs.TermForm

/-!
# Polynomial trees

A tree is polynomial if it is made of whole numbers and variables by products, sums and powers with
exponents that are natural numbers. It stands for a polynomial with whole coefficients, whose value
at the variables is what the tree means. Since polynomials that agree everywhere are equal, what is
known of the meaning of a tree that is built from polynomial ones determines its polynomial.
-/

namespace SymbolicAlgebra

open Outcome
open MvPolynomial (X C aeval)

def Tree.IsVariable (t : Tree) : Prop := ∃ name, t = .variable name

mutual

/-- The polynomial that a polynomial tree stands for. -/
noncomputable def Tree.polynomial : Tree → MvPolynomial String Int
  | .number v => C (Tree.number v).wholePart
  | .variable name => X name
  | .power f => f.polynomial
  | .term t => t.polynomial
  | .sum ts => Term.totalPolynomial ts
  | .constant _ | .call .. => 0

noncomputable def Factor.polynomial : Factor → MvPolynomial String Int
  | ⟨base, exponent⟩ => base.polynomial ^ exponent.wholePart.toNat

noncomputable def Term.polynomial : Term → MvPolynomial String Int
  | ⟨multiplier, _, top, _⟩ =>
    C (Tree.number multiplier).wholePart * Factor.productPolynomial top

noncomputable def Factor.productPolynomial : List Factor → MvPolynomial String Int
  | [] => 1
  | f :: rest => f.polynomial * Factor.productPolynomial rest

noncomputable def Term.totalPolynomial : List Term → MvPolynomial String Int
  | [] => 0
  | t :: rest => t.polynomial + Term.totalPolynomial rest

end

variable (sums : Bool)

mutual

/-- The tree is polynomial, and sums are among its parts only where they are admitted. The exponent
of anything but a variable is one with which sums are multiplied out. -/
def Tree.IsPolynomial : Tree → Prop
  | .number v => ∃ z : Int, v = .exact z
  | .variable _ => True
  | .power f => f.IsPolynomial
  | .term t => t.IsPolynomial
  | .sum ts => sums = true ∧ Term.AllPolynomial ts
  | .constant _ | .call .. => False

def Factor.IsPolynomial : Factor → Prop
  | ⟨base, exponent⟩ => base.IsPolynomial ∧
      ∃ k : Nat, exponent = .whole k ∧ (k ≤ maxExpandedPower ∨ base.IsVariable)

def Term.IsPolynomial : Term → Prop
  | ⟨multiplier, divisor, top, bottom⟩ => (∃ z : Int, multiplier = .exact z) ∧ divisor = .one ∧
      top ≠ [] ∧ Factor.AllPolynomial top ∧ bottom = [.placeholder]

def Factor.AllPolynomial : List Factor → Prop
  | [] => True
  | f :: rest => f.IsPolynomial ∧ Factor.AllPolynomial rest

def Term.AllPolynomial : List Term → Prop
  | [] => True
  | t :: rest => t.IsPolynomial ∧ Term.AllPolynomial rest

end

variable {sums}

theorem Factor.allPolynomial_iff {fs : List Factor} :
    AllPolynomial sums fs ↔ ∀ f ∈ fs, f.IsPolynomial sums := by
  induction fs with
  | nil => simp [AllPolynomial]
  | cons f fs ih => simp [AllPolynomial, ih]

theorem Term.allPolynomial_iff {ts : List Term} :
    AllPolynomial sums ts ↔ ∀ t ∈ ts, t.IsPolynomial sums := by
  induction ts with
  | nil => simp [AllPolynomial]
  | cons t ts ih => simp [AllPolynomial, ih]

theorem Term.isPolynomial_iff {t : Term} :
    t.IsPolynomial sums ↔ (∃ z : Int, t.multiplier = .exact z) ∧ t.divisor = .one ∧ t.top ≠ [] ∧
      (∀ f ∈ t.top, f.IsPolynomial sums) ∧ t.bottom = [.placeholder] := by
  cases t
  rw [IsPolynomial, Factor.allPolynomial_iff]

theorem Factor.isPolynomial_placeholder : placeholder.IsPolynomial sums :=
  ⟨⟨1, by simp [Value.one]⟩, 1, Tree.whole_one.symm, .inl (by decide)⟩

theorem Tree.isPolynomial_sum {ts : List Term} :
    (Tree.sum ts).IsPolynomial true ↔ ∀ t ∈ ts, t.IsPolynomial true := by
  simp [IsPolynomial, Term.allPolynomial_iff]

mutual

/-- A polynomial tree stays one where sums are admitted. -/
theorem Tree.IsPolynomial.withSums : (t : Tree) → t.IsPolynomial sums → t.IsPolynomial true
  | .number _, h | .variable _, h => h
  | .power f, h => Factor.IsPolynomial.withSums f h
  | .term t, h => Term.IsPolynomial.withSums t h
  | .sum ts, h => ⟨rfl, Term.AllPolynomial.withSums ts h.2⟩
  | .constant _, h | .call .., h => h.elim

theorem Factor.IsPolynomial.withSums : (f : Factor) → f.IsPolynomial sums → f.IsPolynomial true
  | ⟨base, _⟩, ⟨hbase, hexponent⟩ => ⟨Tree.IsPolynomial.withSums base hbase, hexponent⟩

theorem Term.IsPolynomial.withSums : (t : Term) → t.IsPolynomial sums → t.IsPolynomial true
  | ⟨_, _, top, _⟩, ⟨hm, hd, hne, htop, hbottom⟩ =>
    ⟨hm, hd, hne, Factor.AllPolynomial.withSums top htop, hbottom⟩

theorem Factor.AllPolynomial.withSums : (fs : List Factor) → Factor.AllPolynomial sums fs →
    Factor.AllPolynomial true fs
  | [], _ => trivial
  | f :: rest, ⟨hf, hrest⟩ => ⟨Factor.IsPolynomial.withSums f hf, Factor.AllPolynomial.withSums rest hrest⟩

theorem Term.AllPolynomial.withSums : (ts : List Term) → Term.AllPolynomial sums ts →
    Term.AllPolynomial true ts
  | [], _ => trivial
  | t :: rest, ⟨ht, hrest⟩ => ⟨Term.IsPolynomial.withSums t ht, Term.AllPolynomial.withSums rest hrest⟩

end

theorem Tree.wholePart_exact (z : Int) : (Tree.number (.exact z)).wholePart = z := wholePart_whole z

theorem Term.polynomial_eq {t : Term} {z : Int} (hz : t.multiplier = .exact z) :
    t.polynomial = C z * Factor.productPolynomial t.top := by
  obtain ⟨m, d, top, bottom⟩ := t
  obtain rfl : m = .exact z := hz
  rw [polynomial, Tree.wholePart_exact]

theorem Factor.polynomial_whole (b : Tree) (k : Nat) :
    (⟨b, .whole k⟩ : Factor).polynomial = b.polynomial ^ k := by
  rw [polynomial, Tree.wholePart_whole, Int.toNat_natCast]

theorem Factor.polynomial_placeholder : placeholder.polynomial = 1 := by
  simp [placeholder, polynomial, Tree.polynomial, Tree.one, Tree.wholePart, Value.one]

theorem Factor.productPolynomial_append (fs gs : List Factor) :
    productPolynomial (fs ++ gs) = productPolynomial fs * productPolynomial gs := by
  induction fs with
  | nil => simp [productPolynomial]
  | cons f fs ih => simp [productPolynomial, ih, mul_assoc]

theorem Factor.productPolynomial_side (fs : List Factor) :
    productPolynomial (Term.side fs) = productPolynomial fs := by
  cases fs with
  | nil => simp [Term.side, productPolynomial, polynomial_placeholder]
  | cons f fs => rfl

theorem Factor.productPolynomial_perm {fs gs : List Factor} (h : fs.Perm gs) :
    productPolynomial fs = productPolynomial gs := by
  induction h with
  | nil => rfl
  | cons f _ ih => simp [productPolynomial, ih]
  | swap f g fs => simp only [productPolynomial, mul_left_comm]
  | trans _ _ ih ih' => rw [ih, ih']

theorem Term.totalPolynomial_append (ss ts : List Term) :
    totalPolynomial (ss ++ ts) = totalPolynomial ss + totalPolynomial ts := by
  induction ss with
  | nil => simp [totalPolynomial]
  | cons s ss ih => simp [totalPolynomial, ih, add_assoc]

theorem Term.totalPolynomial_perm {ss ts : List Term} (h : ss.Perm ts) :
    totalPolynomial ss = totalPolynomial ts := by
  induction h with
  | nil => rfl
  | cons t _ ih => simp [totalPolynomial, ih]
  | swap s t ts => simp only [totalPolynomial, add_left_comm]
  | trans _ _ ih ih' => rw [ih, ih']

section
variable {I : Interpretation}

mutual

/-- A polynomial tree means the value of its polynomial. -/
theorem Tree.IsPolynomial.meaning : (t : Tree) → t.IsPolynomial sums →
    t.meaning? I = some (aeval I.ofVariable t.polynomial)
  | .number v, h => by
    obtain ⟨z, rfl⟩ := h
    rw [Tree.polynomial, Tree.wholePart_exact, MvPolynomial.aeval_C]
    rfl
  | .variable name, _ => by rw [Tree.polynomial, MvPolynomial.aeval_X]; rfl
  | .power f, h => Factor.IsPolynomial.meaning f h
  | .term t, h => Term.IsPolynomial.meaning t h
  | .sum ts, h => Term.AllPolynomial.total ts h.2
  | .constant _, h | .call .., h => h.elim

theorem Factor.IsPolynomial.meaning : (f : Factor) → f.IsPolynomial sums →
    f.meaning? I = some (aeval I.ofVariable f.polynomial)
  | ⟨base, _⟩, ⟨hbase, k, rfl, _⟩ => by
    have hb := Tree.IsPolynomial.meaning base hbase
    rw [Factor.polynomial_whole, map_pow, Factor.meaning?_whole]
    exact ⟨_, hb, .inr (Int.natCast_nonneg k), (zpow_natCast _ k).symm⟩

theorem Term.IsPolynomial.meaning : (t : Term) → t.IsPolynomial sums →
    t.meaning? I = some (aeval I.ofVariable t.polynomial)
  | ⟨_, _, top, _⟩, ⟨⟨z, rfl⟩, rfl, _, htop, rfl⟩ => by
    refine Term.meaning?_eq_some.mpr ⟨z, 1, _, 1, rfl, rfl, Factor.AllPolynomial.product top htop,
      Factor.product?_side [], one_ne_zero, one_ne_zero, ?_⟩
    rw [Term.polynomial_eq rfl, map_mul, MvPolynomial.aeval_C, mul_one, div_one]
    rfl

theorem Factor.AllPolynomial.product : (fs : List Factor) → Factor.AllPolynomial sums fs →
    Factor.product? I fs = some (aeval I.ofVariable (Factor.productPolynomial fs))
  | [], _ => by rw [Factor.productPolynomial, map_one]; rfl
  | f :: rest, ⟨hf, hrest⟩ => by
    rw [Factor.productPolynomial, map_mul]
    exact Factor.product?_cons_eq_some.mpr ⟨_, _, Factor.IsPolynomial.meaning f hf,
      Factor.AllPolynomial.product rest hrest, rfl⟩

theorem Term.AllPolynomial.total : (ts : List Term) → Term.AllPolynomial sums ts →
    Term.total? I ts = some (aeval I.ofVariable (Term.totalPolynomial ts))
  | [], _ => by rw [Term.totalPolynomial, map_zero]; rfl
  | t :: rest, ⟨ht, hrest⟩ => by
    rw [Term.totalPolynomial, map_add]
    exact Term.total?_cons_eq_some.mpr ⟨_, _, Term.IsPolynomial.meaning t ht,
      Term.AllPolynomial.total rest hrest, rfl⟩

end

end

theorem polynomial_ext {P Q : MvPolynomial String Int}
    (h : ∀ x : String → Rat, aeval x P = aeval x Q) : P = Q := by
  apply MvPolynomial.funext
  intro x
  have hcast : ∀ R : MvPolynomial String Int,
      aeval (algebraMap Int Rat ∘ x) R = ((MvPolynomial.eval x R : Int) : Rat) := by
    intro R
    rw [MvPolynomial.aeval_algebraMap_apply, MvPolynomial.aeval_eq_eval]
    rfl
  have hx := h (algebraMap Int Rat ∘ x)
  rw [hcast, hcast] at hx
  exact_mod_cast hx

theorem Tree.IsPolynomial.polynomial_eq {t : Tree} {P : MvPolynomial String Int}
    (h : t.IsPolynomial sums) (hP : ∀ I, t.meaning? I = some (aeval I.ofVariable P)) :
    t.polynomial = P := by
  apply polynomial_ext
  intro x
  have hx := hP ⟨x, fun _ => 0, fun _ _ => none⟩
  rw [meaning t h] at hx
  exact Option.some.inj hx

theorem Term.IsPolynomial.polynomial_eq {t : Term} {P : MvPolynomial String Int}
    (h : t.IsPolynomial sums) (hP : ∀ I, t.meaning? I = some (aeval I.ofVariable P)) :
    t.polynomial = P :=
  Tree.IsPolynomial.polynomial_eq (t := .term t) h hP

end SymbolicAlgebra
