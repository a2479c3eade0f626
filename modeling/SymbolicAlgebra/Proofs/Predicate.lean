import SymbolicAlgebra.Proofs.Meaning
import SymbolicAlgebra.Proofs.Outcome
import SymbolicAlgebra.Tree.Predicate

/-!
# The predicates are sound

What the predicates on trees find out is true of the meaning of a tree, whatever the powers that
they compute on the way: a plain value is the meaning, exactly, and a tree that is found to be one
or zero means one or zero. The induction is on the tree and covers all the predicates at once,
since they ask each other about the parts.
-/

namespace SymbolicAlgebra

open Outcome

variable {I : Interpretation}

namespace Value

theorem pow_eq_exact {b e q : Rat} (h : (exact b).pow (exact e) = .ok (exact q)) :
    ∃ n : Int, e = n ∧ (b ≠ 0 ∨ 0 ≤ n) ∧ q = b ^ n := by
  unfold pow at h
  split at h
  · simp [undefined] at h
  · next hneg =>
    by_cases he : e.den = 1 ∧ e.num.natAbs ≤ maxExactExponent
    · refine ⟨e.num, (Rat.coe_int_num_of_den_eq_one he.1).symm, ?_, ?_⟩
      · by_contra! hc
        exact hneg (by simp [hc.1, Rat.num_neg.mp hc.2])
      · simpa [exactExponent?, he, eq_comm] using h
    · obtain ⟨x, _, h⟩ := bind_eq_ok.mp (by simpa [exactExponent?, he, inexact] using h)
      obtain ⟨y, _, h⟩ := bind_eq_ok.mp h
      simp at h

theorem exactPower?_eq_some {b e : Rat} {v : Value}
    (h : (exact b).exactPower? (exact e) = .ok (some v)) :
    ∃ n : Int, e = n ∧ (b ≠ 0 ∨ 0 ≤ n) ∧ v = exact (b ^ n) := by
  obtain ⟨result, hpow, h⟩ := bind_eq_ok.mp h
  cases result with
  | float x => simp [isExact] at h
  | exact q =>
    obtain ⟨n, he, hn, rfl⟩ := pow_eq_exact hpow
    exact ⟨n, he, hn, by simpa [isExact] using h.symm⟩

theorem exactPower?_exact {x : Rat} {n : Int} (hx : x ≠ 0 ∨ 0 ≤ n)
    (hn : n.natAbs ≤ maxExactExponent) :
    (exact x).exactPower? (exact n) = .ok (some (exact (x ^ n))) := by
  simp [exactPower?, pow_exact hx hn, isExact]

end Value

mutual

theorem Tree.plainValue?_sound : (t : Tree) → {v : Value} → {q : Rat} →
    t.plainValue? = .ok (some v) → t.meaning? I = some q → v = .exact q
  | .number w, v, q, h, hq => by
    obtain rfl : w = v := by simpa [Tree.plainValue?] using h
    exact Tree.meaning?_number_eq_some.mp hq
  | .constant c, v, q, h, hq => by simp [Tree.plainValue?] at h
  | .variable x, v, q, h, hq => by simp [Tree.plainValue?] at h
  | .power f, v, q, h, hq => f.value?_sound h hq
  | .term t, v, q, h, hq => t.plainValue?_sound h hq
  | .sum [], v, q, h, hq => by simp [Tree.plainValue?] at h
  | .sum [t], v, q, h, hq => t.plainValue?_sound h (by rwa [Tree.meaning?_sum_singleton] at hq)
  | .sum (_ :: _ :: _), v, q, h, hq => by simp [Tree.plainValue?] at h
  | .call f args, v, q, h, hq => by simp [Tree.plainValue?] at h

theorem Factor.value?_sound : (f : Factor) → {v : Value} → {q : Rat} →
    f.value? = .ok (some v) → f.meaning? I = some q → v = .exact q
  | ⟨base, exponent⟩, v, q, h, hq => by
    obtain ⟨b, n, hb, he, hn, rfl⟩ := Factor.meaning?_eq_some.mp hq
    obtain ⟨vb, hvb, h⟩ := bind_eq_ok.mp h
    cases vb with
    | none => simp at h
    | some vb =>
      obtain ⟨ve, hve, h⟩ := bind_eq_ok.mp h
      cases ve with
      | none => simp at h
      | some ve =>
        obtain rfl := base.plainValue?_sound hvb hb
        obtain rfl := exponent.plainValue?_sound hve he
        obtain ⟨k, hk, _, rfl⟩ := Value.exactPower?_eq_some h
        obtain rfl : n = k := by exact_mod_cast hk
        rfl

theorem Term.plainValue?_sound : (t : Term) → {v : Value} → {q : Rat} →
    t.plainValue? = .ok (some v) → t.meaning? I = some q → v = .exact q
  | ⟨multiplier, divisor, top, bottom⟩, v, q, h, hq => by
    obtain ⟨m, d, n, k, rfl, rfl, hn, hk, hd0, _, rfl⟩ := Term.meaning?_eq_some.mp hq
    obtain ⟨b, htop, h⟩ := bind_eq_ok.mp h
    cases b with
    | false => simp at h
    | true =>
      obtain ⟨b, hbottom, h⟩ := bind_eq_ok.mp h
      cases b with
      | false => simp at h
      | true =>
        obtain rfl := Factor.allOne_sound top htop hn
        obtain rfl := Factor.allOne_sound bottom hbottom hk
        simpa [Value.div_exact m hd0, eq_comm] using h

theorem Tree.isOne_sound : (t : Tree) → {q : Rat} →
    t.isOne = .ok true → t.meaning? I = some q → q = 1
  | .number v, q, h, hq => by
    obtain rfl := Tree.meaning?_number_eq_some.mp hq
    simpa [Tree.isOne] using h
  | .constant c, q, h, hq => by simp [Tree.isOne] at h
  | .variable x, q, h, hq => by simp [Tree.isOne] at h
  | .power f, q, h, hq => f.isOne_sound h hq
  | .term t, q, h, hq => t.isOne_sound h hq
  | .sum [], q, h, hq => by simp [Tree.isOne] at h
  | .sum [t], q, h, hq => t.isOne_sound h (by rwa [Tree.meaning?_sum_singleton] at hq)
  | .sum (_ :: _ :: _), q, h, hq => by simp [Tree.isOne] at h
  | .call f args, q, h, hq => by simp [Tree.isOne] at h

theorem Factor.isOne_sound : (f : Factor) → {q : Rat} →
    f.isOne = .ok true → f.meaning? I = some q → q = 1
  | ⟨base, exponent⟩, q, h, hq => by
    obtain ⟨b, n, hb, he, hn, rfl⟩ := Factor.meaning?_eq_some.mp hq
    obtain ⟨z, hz, h⟩ := bind_eq_ok.mp h
    cases z with
    | true =>
      have hn0 : n = 0 := by exact_mod_cast exponent.isZero_sound hz he
      rw [hn0, zpow_zero]
    | false =>
      obtain rfl := base.isOne_sound (by simpa using h) hb
      exact one_zpow n

theorem Term.isOne_sound : (t : Term) → {q : Rat} →
    t.isOne = .ok true → t.meaning? I = some q → q = 1
  | ⟨multiplier, divisor, top, bottom⟩, q, h, hq => by
    obtain ⟨m, d, n, k, rfl, rfl, hn, hk, _, _, rfl⟩ := Term.meaning?_eq_some.mp hq
    simp only [Term.isOne, Value.isOne_exact] at h
    split at h
    · next hone =>
      obtain ⟨rfl, rfl⟩ : m = 1 ∧ d = 1 := by simpa using hone
      obtain ⟨b, hbottom, h⟩ := bind_eq_ok.mp h
      cases b with
      | false => simp at h
      | true =>
        obtain rfl := Factor.allOne_sound top (by simpa using h) hn
        obtain rfl := Factor.allOne_sound bottom hbottom hk
        norm_num
    · simp at h

theorem Factor.allOne_sound : (fs : List Factor) → {q : Rat} →
    Factor.allOne fs = .ok true → Factor.product? I fs = some q → q = 1
  | [], q, h, hq => (Option.some.inj hq).symm
  | f :: rest, q, h, hq => by
    obtain ⟨a, b, ha, hb, rfl⟩ := Factor.product?_cons_eq_some.mp hq
    obtain ⟨one, hone, h⟩ := bind_eq_ok.mp h
    cases one with
    | false => simp at h
    | true =>
      obtain rfl := f.isOne_sound hone ha
      obtain rfl := Factor.allOne_sound rest (by simpa using h) hb
      norm_num

theorem Tree.isZero_sound : (t : Tree) → {q : Rat} →
    t.isZero = .ok true → t.meaning? I = some q → q = 0
  | .number v, q, h, hq => by
    obtain rfl := Tree.meaning?_number_eq_some.mp hq
    simpa [Tree.isZero] using h
  | .constant c, q, h, hq => by simp [Tree.isZero] at h
  | .variable x, q, h, hq => by simp [Tree.isZero] at h
  | .power f, q, h, hq => f.isZero_sound h hq
  | .term t, q, h, hq => t.isZero_sound h hq
  | .sum terms, q, h, hq => Term.allZero_sound terms h hq
  | .call f args, q, h, hq => by simp [Tree.isZero] at h

theorem Factor.isZero_sound : (f : Factor) → {q : Rat} →
    f.isZero = .ok true → f.meaning? I = some q → q = 0
  | ⟨base, exponent⟩, q, h, hq => by
    obtain ⟨b, n, hb, he, hn, rfl⟩ := Factor.meaning?_eq_some.mp hq
    obtain ⟨e, hplain, h⟩ := bind_eq_ok.mp h
    obtain ⟨z, hz, h⟩ := bind_eq_ok.mp h
    cases z with
    | false => simp at h
    | true =>
      obtain rfl := base.isZero_sound hz hb
      cases e with
      | none => simp at h
      | some e =>
        obtain rfl := exponent.plainValue?_sound hplain he
        have hpos : 0 < n := by simpa using h
        exact zero_zpow n hpos.ne'

theorem Term.isZero_sound : (t : Term) → {q : Rat} →
    t.isZero = .ok true → t.meaning? I = some q → q = 0
  | ⟨multiplier, divisor, top, bottom⟩, q, h, hq => by
    obtain ⟨m, d, n, k, rfl, rfl, hn, hk, _, _, rfl⟩ := Term.meaning?_eq_some.mp hq
    simp only [Term.isZero, Value.isZero_exact] at h
    split at h
    · next hzero => simp_all
    · obtain rfl := Factor.anyZero_sound top h hn
      simp

theorem Factor.anyZero_sound : (fs : List Factor) → {q : Rat} →
    Factor.anyZero fs = .ok true → Factor.product? I fs = some q → q = 0
  | [], q, h, hq => by simp [Factor.anyZero] at h
  | f :: rest, q, h, hq => by
    obtain ⟨a, b, ha, hb, rfl⟩ := Factor.product?_cons_eq_some.mp hq
    obtain ⟨z, hz, h⟩ := bind_eq_ok.mp h
    cases z with
    | true =>
      obtain rfl := f.isZero_sound hz ha
      simp
    | false =>
      obtain rfl := Factor.anyZero_sound rest (by simpa using h) hb
      simp

theorem Term.allZero_sound : (ts : List Term) → {q : Rat} →
    Term.allZero ts = .ok true → Term.total? I ts = some q → q = 0
  | [], q, h, hq => (Option.some.inj hq).symm
  | t :: rest, q, h, hq => by
    obtain ⟨a, b, ha, hb, rfl⟩ := Term.total?_cons_eq_some.mp hq
    obtain ⟨z, hz, h⟩ := bind_eq_ok.mp h
    cases z with
    | false => simp at h
    | true =>
      obtain rfl := t.isZero_sound hz ha
      obtain rfl := Term.allZero_sound rest (by simpa using h) hb
      simp

end

end SymbolicAlgebra
