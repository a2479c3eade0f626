import Mathlib.Algebra.BigOperators.Group.List.Basic
import SymbolicAlgebra.Evaluate
import SymbolicAlgebra.Proofs.Simplification

/-!
# Numerals

A numeral is an exact number, alone or as a fraction of two in a term without factors. It has no
variables, it is plain, and its value is found out exactly. A normal tree of degree zero with a
meaning is the numeral of what it means, so the canonical form of a sum of numerals is a numeral.
-/

namespace SymbolicAlgebra

open Outcome

variable {I : Interpretation}

/-- A fraction of exact numbers as a term. -/
def Term.IsNumeral (q : Rat) (t : Term) : Prop :=
  ∃ m d : Rat, d ≠ 0 ∧ q = m / d ∧ t = ⟨.exact m, .exact d, [.placeholder], [.placeholder]⟩

def Tree.IsNumeral (q : Rat) : Tree → Prop
  | .number v => v = .exact q
  | .term t => t.IsNumeral q
  | _ => False

theorem Term.isNumeral_ofValue (q : Rat) : (ofValue (.exact q)).IsNumeral q :=
  ⟨q, 1, one_ne_zero, (div_one q).symm, rfl⟩

theorem Factor.numericProduct_placeholder (m : Rat) :
    numericProduct (.exact m) [placeholder] = .ok (.exact m) := by
  have hpow : Value.one.pow .one = .ok (.exact (1 ^ (1 : Int))) := by
    simpa [Value.one] using Value.pow_exact (p := 1) (n := 1) (.inl one_ne_zero) (by decide)
  simp [numericProduct, placeholder, numericValue, Tree.numericValue, Tree.one, hpow,
    Value.mul_exact]

namespace Term

variable {t : Term} {q : Rat}

theorem IsNumeral.plainValue? (h : t.IsNumeral q) : t.plainValue? = .ok (some (.exact q)) := by
  obtain ⟨m, d, hd, rfl, rfl⟩ := h
  simp [Term.plainValue?, Factor.allOne_placeholder, Value.div_exact m hd]

theorem IsNumeral.numericValue (h : t.IsNumeral q) : t.numericValue = .ok (.exact q) := by
  obtain ⟨m, d, hd, rfl, rfl⟩ := h
  simp [Term.numericValue, Factor.numericProduct_placeholder, Value.div_exact m hd]

theorem IsNumeral.meaning? (h : t.IsNumeral q) : t.meaning? I = some q := by
  obtain ⟨m, d, hd, rfl, rfl⟩ := h
  have hplaceholder : Factor.product? I [.placeholder] = some 1 := Factor.product?_side []
  exact meaning?_eq_some.mpr ⟨m, d, 1, 1, rfl, rfl, hplaceholder, hplaceholder, hd, one_ne_zero,
    by ring⟩

theorem IsNumeral.degree (h : t.IsNumeral q) (least : Nat) : t.degree least = 0 := by
  obtain ⟨m, d, -, -, rfl⟩ := h
  exact degree_ofValue (.exact m) least

theorem IsNumeral.effort (h : t.IsNumeral q) : t.effort = 2 := by
  obtain ⟨m, d, -, -, rfl⟩ := h
  rfl

theorem IsNumeral.wholeExponents (h : t.IsNumeral q) :
    ∀ f ∈ t.top ++ t.bottom, f = .placeholder := by
  obtain ⟨m, d, -, -, rfl⟩ := h
  simp

theorem IsNumeral.fits {least width : Nat} (h : t.IsNumeral q) (hwidth : 2 ≤ width) :
    (Tree.term t).Fits least width := by
  refine Tree.fits_term.mpr ⟨(h.degree least).trans_le (Nat.zero_le _), ?_, fun f hf => ?_⟩
  · obtain ⟨m, d, -, -, rfl⟩ := h
    exact hwidth
  · rw [h.wholeExponents f hf]
    exact Factor.fits_placeholder least

end Term

namespace Tree

variable {t : Tree} {q : Rat}

theorem IsNumeral.plainValue? (h : t.IsNumeral q) : t.plainValue? = .ok (some (.exact q)) := by
  cases t with
  | number v =>
    obtain rfl : v = .exact q := h
    rfl
  | term t => exact Term.IsNumeral.plainValue? h
  | _ => exact h.elim

theorem IsNumeral.numericValue (h : t.IsNumeral q) : t.numericValue = .ok (.exact q) := by
  cases t with
  | number v =>
    obtain rfl : v = .exact q := h
    rfl
  | term t => exact Term.IsNumeral.numericValue h
  | _ => exact h.elim

theorem IsNumeral.variables (h : t.IsNumeral q) : t.variables = [] := by
  cases t with
  | number v => rfl
  | term t =>
    obtain ⟨m, d, -, -, rfl⟩ := h
    rfl
  | _ => exact h.elim

theorem IsNumeral.toTerm (h : t.IsNumeral q) : ∃ u, t.toTerm = .ok u ∧ u.IsNumeral q := by
  cases t with
  | number v =>
    obtain rfl : v = .exact q := h
    exact ⟨_, rfl, Term.isNumeral_ofValue q⟩
  | term t => exact ⟨t, rfl, h⟩
  | _ => exact h.elim

theorem Normal.isNumeral (h : t.Normal) (hdegree : t.degree 1 = 0) (hq : t.meaning? I = some q) :
    t.IsNumeral q := by
  cases t with
  | number v => exact meaning?_number_eq_some.mp hq
  | power f => exact h.elim
  | term t =>
    obtain ⟨-, -, htop, hbottom⟩ := Term.normal_iff.mp h
    obtain ⟨m, d, n, k, hm, hd, hn, hk, hd0, -, rfl⟩ := Term.meaning?_eq_some.mp hq
    have hsum : t.degree 1 = 0 := hdegree
    rw [t.degree_eq] at hsum
    have htop' := htop.eq_placeholder (by omega)
    have hbottom' := hbottom.eq_placeholder (by omega)
    have hplaceholder : Factor.product? I [.placeholder] = some 1 := Factor.product?_side []
    rw [htop', hplaceholder] at hn
    rw [hbottom', hplaceholder] at hk
    obtain rfl := Option.some.inj hn
    obtain rfl := Option.some.inj hk
    obtain ⟨multiplier, divisor, top, bottom⟩ := t
    exact ⟨m, d, hd0, by ring, Term.mk.injEq .. |>.mpr ⟨hm, hd, htop', hbottom'⟩⟩
  | _ => simp [degree] at hdegree

theorem canonicalWith_isNumeral {limit n : Nat} (hfits : t.Fits 0 (Value.maxExactExponent + 2))
    (hdegree : t.degree 0 = 0) (heffort : t.effort ≤ limit) (hq : t.meaning? I = some q)
    (hn : limit + Term.enoughSteps (Value.maxExactExponent + 2) limit ≤ n) :
    ∃ c, t.canonicalWith n = .ok c ∧ c.IsNumeral q := by
  obtain ⟨c, hc, hform⟩ := (canonizes_canonicalWith le_rfl hn).tree hfits heffort hq
  have hle := hform.degree_le
  exact ⟨c, hc, hform.normal.isNumeral (by omega) (hform.meaning.trans hq)⟩

end Tree

end SymbolicAlgebra
