import Mathlib
import SymbolicAlgebra.Proofs.Negation
import SymbolicAlgebra.Proofs.Symbols
import SymbolicAlgebra.Proofs.WellFormed

/-!
# The factors of a term

Building a term folds its factors: what has a value goes into the coefficient, zeroth powers are
dropped, and the sign of a negative base is pulled out of a first power. The opposite that is left
in the place of the base is not folded again, so it may be a number or negative. All other factors
of terms in a tree that is read are folded, and rewriting keeps this.
-/

namespace SymbolicAlgebra

open Outcome

namespace Factor

/-- The first power of the opposite of a negative base, whose sign has gone into the coefficient. -/
def IsFlipped (f : Factor) : Prop :=
  f.exponent = .one ∧ ∃ base exponent : Tree, base.opposite = .ok f.base ∧
    Factor.IsSymbolic ⟨base, exponent⟩ ∧ exponent.isOne = .ok true ∧ base.isNegative = .ok true

/-- A side of a term as building leaves it, where a base whose sign was pulled out may have any
opposite. -/
def IsBuiltSide (fs : List Factor) : Prop :=
  fs = [placeholder] ∨ fs ≠ [] ∧ ∀ f ∈ fs, f.IsFolded ∨ f.IsFlipped

theorem IsResidue.isFolded_or_isFlipped {f : Factor} (h : f.IsResidue) :
    f.IsFolded ∨ f.IsFlipped := by
  obtain ⟨base, exponent, c, v, h⟩ := h
  rcases Tree.absorb_cases h with ⟨-, -, hnone⟩ | ⟨w, -, -, hnone⟩ |
    ⟨-, hself, hsymbolic, hsign⟩ | ⟨hone, -, o, ho, hflipped, hsymbolic, hnegative⟩
  · cases hnone
  · cases hnone
  · obtain rfl := Option.some.inj hself
    exact .inl ⟨hsymbolic.zero, hsymbolic.value, hsign⟩
  · obtain rfl := Option.some.inj hflipped
    have hopposite := (Tree.opposite_eq_ok hnegative).mpr ho
    exact .inr ⟨rfl, base, exponent, hopposite, hsymbolic, hone, hnegative⟩

theorem isBuiltSide_side {fs : List Factor} (h : ∀ f ∈ fs, f.IsResidue) :
    IsBuiltSide (Term.side fs) := by
  cases fs with
  | nil => exact .inl rfl
  | cons f fs => exact .inr ⟨by simp [Term.side], fun g hg => (h g hg).isFolded_or_isFlipped⟩

end Factor

def Term.IsBuilt (t : Term) : Prop := Factor.IsBuiltSide t.top ∧ Factor.IsBuiltSide t.bottom

namespace Tree

theorem allTerms_isBuilt_compositional : Compositional (AllTerms Term.IsBuilt) where
  number := allTerms_number
  power_iff := allTerms_power
  of_term h := (allTerms_term.mp h).2
  withMultiplier _ h := by
    obtain ⟨hsides, hfactors⟩ := allTerms_term.mp h
    exact allTerms_term.mpr ⟨hsides, hfactors⟩
  term h := by
    obtain ⟨htop, hbottom⟩ := List.forall_mem_append.mp h
    refine allTerms_term.mpr ⟨⟨Factor.isBuiltSide_side fun f hf => (htop f hf).1,
      Factor.isBuiltSide_side fun f hf => (hbottom f hf).1⟩, List.forall_mem_append.mpr ⟨?_, ?_⟩⟩
    · exact Factor.forall_mem_side Factor.allTerms_placeholder fun f hf => (htop f hf).2
    · exact Factor.forall_mem_side Factor.allTerms_placeholder fun f hf => (hbottom f hf).2
  of_sum := allTerms_sum.mp
  sum _ := allTerms_sum.mpr
  of_call := allTerms_call.mp
  call _ _ := allTerms_call.mpr

theorem allTerms_isBuilt_readable : Readable (AllTerms Term.IsBuilt) where
  toCompositional := allTerms_isBuilt_compositional
  ofConstant _ := by simp [AllTerms, nodes]
  ofName _ := by simp [AllTerms, nodes]
  ofCall _ := allTerms_call.mpr

end Tree

/-- In a tree that is read, either side of a term is the placeholder alone or a list of factors each
of which is folded, that is no number, no zeroth power and no first power of a negative base, or is
left where the sign of a negative base was pulled out. -/
theorem Formula.parse_folds {b : Brackets} {text : String} {t : Tree} (h : parse b text = .ok t) :
    t.AllTerms Term.IsBuilt := parse_inherits Tree.allTerms_isBuilt_readable h

/-- In `x * (-2) ^ (x ^ 0)` the exponent is found to be one, but it is no number: the sign is pulled
out, and the two that is left is not folded. -/
theorem Formula.parse_folds_of_opposite :
    let t : Tree := .term
      ⟨.exact (-1), .one, [⟨.variable "x", .one⟩, ⟨.whole 2, .one⟩], [.placeholder]⟩
    parse Brackets.standard "x*(-2)^(x^0)" = .ok t ∧ t.AllTerms Term.IsBuilt ∧
      ¬ (⟨.whole 2, .one⟩ : Factor).IsFolded := by
  intro t
  have hparse : parse Brackets.standard "x*(-2)^(x^0)" = .ok t := by cbv
  refine ⟨hparse, parse_folds hparse, fun hfolded => ?_⟩
  have hvalue : (⟨.whole 2, .one⟩ : Factor).value? = .ok (some (.exact ((2 : Int) ^ (1 : Int)))) :=
    Value.exactPower?_exact (x := (2 : Int)) (n := 1) (.inr Int.one_nonneg) (by decide)
  cases hvalue.symm.trans hfolded.2.1

/-- What a tree that is read is simplified or expanded to is folded as it is. -/
theorem Tree.rewriting_folds {t s : Tree} (h : t.simplify = .ok s ∨ t.expand = .ok s)
    (ht : t.AllTerms Term.IsBuilt) : s.AllTerms Term.IsBuilt := by
  rcases h with h | h
  · exact simplify_inherits allTerms_isBuilt_compositional h ht
  · exact expand_inherits allTerms_isBuilt_compositional h ht

end SymbolicAlgebra
