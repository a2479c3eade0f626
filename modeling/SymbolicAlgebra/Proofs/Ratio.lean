import Mathlib.Tactic.FieldSimp
import Mathlib.Tactic.NormNum
import Mathlib.Data.Rat.Lemmas
import Mathlib.Algebra.Order.Field.Rat
import SymbolicAlgebra.Value.Ratio

/-!
# Coefficients in lowest terms

Exact coefficients are brought to whole numbers of the same quotient without a common divisor, the
second one positive. There is only one such pair, so pairs are brought to the same one exactly if
their quotients are equal, and a pair in lowest terms stays as it is.
-/

namespace SymbolicAlgebra.Value

theorem lowestTerms_ok (n : Int) {d : Int} (hd : d ≠ 0) :
    ∃ a b : Int, lowestTerms n d = (a, b) ∧ 0 < b ∧ a.gcd b = 1 ∧ (a : Rat) / b = n / d := by
  have hg : 0 < (n.gcd d : Int) := by exact_mod_cast Int.gcd_pos_of_ne_zero_right n hd
  obtain ⟨a, ha⟩ := Int.gcd_dvd_left n d
  obtain ⟨b, hb⟩ := Int.gcd_dvd_right n d
  have hb0 : b ≠ 0 := by
    rintro rfl
    exact hd (by rw [hb, mul_zero])
  have hna : n / (n.gcd d : Int) = a := Int.ediv_eq_of_eq_mul_right hg.ne' ha
  have hdb : d / (n.gcd d : Int) = b := Int.ediv_eq_of_eq_mul_right hg.ne' hb
  have hcoprime : a.gcd b = 1 := by
    rw [← hna, ← hdb]
    exact Int.gcd_ediv_gcd_ediv_gcd_of_ne_zero_right hd
  have hquot : (if 1 < (n.gcd d : Int) then (n / (n.gcd d : Int), d / (n.gcd d : Int))
      else (n, d)) = (a, b) := by
    split
    · rw [hna, hdb]
    · obtain h1 : (n.gcd d : Int) = 1 := by omega
      rw [h1, Int.one_mul] at ha hb
      rw [ha, hb]
  have hratio : (a : Rat) / b = n / d := by
    have hg' : ((n.gcd d : Int) : Rat) ≠ 0 := by exact_mod_cast hg.ne'
    have ha' : (n : Rat) = ((n.gcd d : Int) : Rat) * a := by exact_mod_cast ha
    have hb' : (d : Rat) = ((n.gcd d : Int) : Rat) * b := by exact_mod_cast hb
    rw [ha', hb', mul_div_mul_left _ _ hg']
  simp only [lowestTerms, hquot]
  by_cases hneg : b < 0
  · refine ⟨-a, -b, by simp [hneg], by omega, by simpa using hcoprime, ?_⟩
    push_cast
    rw [neg_div_neg_eq, hratio]
  · exact ⟨a, b, by simp [hneg], by omega, hcoprime, hratio⟩

/-- An exact number times a multiple of its denominator is whole. -/
theorem mul_den_whole {q : Rat} {n : Nat} (h : q.den ∣ n) : ((q * n).num : Rat) = q * n := by
  obtain ⟨k, rfl⟩ := h
  have hwhole : q * (q.den * k : Nat) = ((q.num * k : Int) : Rat) := by
    push_cast
    rw [← mul_assoc, Rat.mul_den_eq_num]
  rw [hwhole, Rat.num_intCast]

theorem reduceRatio_exact (p : Rat) {q : Rat} (hq : q ≠ 0) :
    ∃ a b : Int, reduceRatio (.exact p) (.exact q) = .ok (.exact a, .exact b) ∧ 0 < b ∧
      a.gcd b = 1 ∧ (a : Rat) / b = p / q := by
  have hscale : ((p.den.lcm q.den : Nat) : Rat) ≠ 0 := by
    exact_mod_cast Nat.lcm_ne_zero p.den_nz q.den_nz
  have hp := mul_den_whole (Nat.dvd_lcm_left p.den q.den)
  have hq' := mul_den_whole (Nat.dvd_lcm_right p.den q.den)
  have hd : (q * (p.den.lcm q.den : Nat)).num ≠ 0 := by
    rw [Rat.num_ne_zero]
    exact mul_ne_zero hq hscale
  obtain ⟨a, b, hlowest, hb, hcoprime, hratio⟩ :=
    lowestTerms_ok (p * (p.den.lcm q.den : Nat)).num hd
  refine ⟨a, b, by simp [reduceRatio, isFinite, hq, ofIntegers, hlowest, pure, Except.pure], hb,
    hcoprime, ?_⟩
  rw [hratio, hp, hq', mul_div_mul_right _ _ hscale]

/-- A quotient of whole numbers in lowest terms has them as its numerator and denominator. -/
theorem num_den_of_lowest {a b : Int} (hb : 0 < b) (h : a.gcd b = 1) :
    ((a : Rat) / b).num = a ∧ (((a : Rat) / b).den : Int) = b := by
  have hcoprime : a.natAbs.Coprime b.natAbs := h
  exact ⟨Rat.num_div_eq_of_coprime hb hcoprime, Rat.den_div_eq_of_coprime hb hcoprime⟩

/-- The pair in lowest terms is that of the quotient. -/
theorem reduceRatio_eq_num_den (p : Rat) {q : Rat} (hq : q ≠ 0) :
    reduceRatio (.exact p) (.exact q) =
      .ok (.exact (p / q).num, .exact ((p / q).den : Int)) := by
  obtain ⟨a, b, hreduce, hb, hcoprime, hratio⟩ := reduceRatio_exact p hq
  obtain ⟨hnum, hden⟩ := num_den_of_lowest hb hcoprime
  rw [hreduce, ← hratio, hnum, hden]

theorem reduceRatio_eq_iff {p q p' q' : Rat} (hq : q ≠ 0) (hq' : q' ≠ 0) :
    reduceRatio (.exact p') (.exact q') = reduceRatio (.exact p) (.exact q) ↔ p' / q' = p / q := by
  rw [reduceRatio_eq_num_den p hq, reduceRatio_eq_num_den p' hq']
  constructor
  · intro h
    obtain ⟨hnum, hden⟩ := Prod.mk.inj (Except.ok.inj h)
    have hnum' : (p' / q').num = (p / q).num := Rat.intCast_injective (exact.inj hnum)
    have hden' : ((p' / q').den : Int) = (p / q).den := Rat.intCast_injective (exact.inj hden)
    exact Rat.ext hnum' (Int.ofNat_inj.mp hden')
  · intro h
    rw [h]

/-- Exact coefficients of which the second is not zero come to whole numbers of the same quotient
without a common divisor, the second one positive. These come to themselves, and other coefficients
come to them exactly if they have the same quotient. -/
theorem reduceRatio_normalizes (p : Rat) {q : Rat} (hq : q ≠ 0) :
    ∃ n d : Int, reduceRatio (.exact p) (.exact q) = .ok (.exact n, .exact d) ∧ 0 < d ∧
      n.gcd d = 1 ∧ (n : Rat) / d = p / q ∧
      reduceRatio (.exact n) (.exact d) = .ok (.exact n, .exact d) ∧
      ∀ p' q' : Rat, q' ≠ 0 →
        (reduceRatio (.exact p') (.exact q') = .ok (.exact n, .exact d) ↔ p' / q' = p / q) := by
  obtain ⟨n, d, hreduce, hd, hcoprime, hratio⟩ := reduceRatio_exact p hq
  have hd' : (d : Rat) ≠ 0 := by exact_mod_cast hd.ne'
  refine ⟨n, d, hreduce, hd, hcoprime, hratio, ?_, fun p' q' hq' => ?_⟩
  · rw [← hreduce]
    exact (reduceRatio_eq_iff hq hd').mpr hratio
  · rw [← hreduce]
    exact reduceRatio_eq_iff hq hq'

/-- Two negative decimals come to the same pair as two whole numbers of their quotient. -/
theorem reduceRatio_normalizes_of_negatives :
    (-(9 / 10) : Rat) ≠ 0 ∧
      reduceRatio (.exact (-(3 / 4))) (.exact (-(9 / 10))) = .ok (.exact 5, .exact 6) ∧
      reduceRatio (.exact 10) (.exact 12) = .ok (.exact 5, .exact 6) := by
  have hq : (-(9 / 10) : Rat) ≠ 0 := by norm_num
  have hvalue : reduceRatio (.exact (-(3 / 4))) (.exact (-(9 / 10))) = .ok (.exact 5, .exact 6) := by
    obtain ⟨hnum, hden⟩ := num_den_of_lowest (a := 5) (b := 6) (by decide) (by decide)
    have hratio : (-(3 / 4) : Rat) / -(9 / 10) = (5 : Int) / (6 : Int) := by norm_num
    rw [reduceRatio_eq_num_den _ hq, hratio, hnum, hden]
    rfl
  obtain ⟨n, d, hreduce, -, -, -, -, hsame⟩ := reduceRatio_normalizes (-(3 / 4)) hq
  refine ⟨hq, hvalue, ?_⟩
  rw [← hvalue, hreduce]
  exact (hsame 10 12 (by norm_num)).mpr (by norm_num)

end SymbolicAlgebra.Value
