import Mathlib.Data.Nat.GCD.Basic
import Mathlib.Data.Nat.Prime.Basic
import Mathlib.Order.Bounds.Basic
import SymbolicAlgebra.Proofs.Ratio

/-!
# Decimal places

An exact number needs as many digits after the point as the least power of ten by which it becomes
whole, the least one that its denominator divides. Dividing the denominator by ten, or by two or
five if ten does not divide it, lowers this least power by one. A denominator that none of them
divides has none, unless it is one. So the places that are counted within a bound on the number of
divisions are the least ones, and none are found where more divisions would be needed.
-/

namespace SymbolicAlgebra.Value

variable {d k m p : Nat}

theorem isLeast_pow_of_coprime (h : d.Coprime 10) :
    IsLeast {j | d ∣ 10 ^ j} p ↔ d = 1 ∧ p = 0 := by
  constructor
  · rintro ⟨hp, hleast⟩
    have hone : d = 1 := (h.pow_right p).eq_one_of_dvd hp
    exact ⟨hone, Nat.le_zero.mp (hleast (hone ▸ one_dvd (10 ^ 0)))⟩
  · rintro ⟨rfl, rfl⟩
    exact ⟨one_dvd _, fun _ _ => Nat.zero_le _⟩

theorem mul_dvd_pow_succ (hk : k * m = 10) (hd : d.Coprime m) (j : Nat) :
    k * d ∣ 10 ^ (j + 1) ↔ d ∣ 10 ^ j := by
  have hpos : 0 < k := Nat.pos_of_ne_zero (by rintro rfl; simp at hk)
  have hpow : 10 ^ (j + 1) = k * (m * 10 ^ j) := by rw [← mul_assoc, hk, pow_succ']
  rw [hpow, Nat.mul_dvd_mul_iff_left hpos, hd.dvd_mul_left]

/-- A factor `k` of ten, other than one, makes the least power one higher if the denominator shares
no divisor with the other factor. -/
theorem isLeast_pow_mul (hk : k * m = 10) (hone : k ≠ 1) (hd : d.Coprime m) :
    IsLeast {j | k * d ∣ 10 ^ j} p ↔ ∃ r, IsLeast {j | d ∣ 10 ^ j} r ∧ r + 1 = p := by
  have hzero : ¬ k * d ∣ 10 ^ 0 := fun h => hone (Nat.dvd_one.mp (dvd_of_mul_right_dvd h))
  constructor
  · rintro ⟨hp, hleast⟩
    cases p with
    | zero => exact absurd hp hzero
    | succ r =>
      refine ⟨r, ⟨(mul_dvd_pow_succ hk hd r).mp hp, fun j hj => ?_⟩, rfl⟩
      exact Nat.le_of_succ_le_succ (hleast ((mul_dvd_pow_succ hk hd j).mpr hj))
  · rintro ⟨r, ⟨hr, hleast⟩, rfl⟩
    refine ⟨(mul_dvd_pow_succ hk hd r).mpr hr, fun j hj => ?_⟩
    cases j with
    | zero => exact absurd hj hzero
    | succ j => exact Nat.succ_le_succ (hleast ((mul_dvd_pow_succ hk hd j).mp hj))

variable {steps : Nat}

/-- If the count within a bound is right, it is right after one more division. -/
theorem placesOf?_divided (hcount : ∀ {d p : Nat},
      placesOf? steps d = some p ↔ p ≤ steps ∧ IsLeast {j | d ∣ 10 ^ j} p)
    (hk : k * m = 10) (hone : k ≠ 1) (hmod : d % k = 0) (hd : (d / k).Coprime m) :
    (placesOf? steps (d / k)).map (· + 1) = some p ↔
      p ≤ steps + 1 ∧ IsLeast {j | d ∣ 10 ^ j} p := by
  have hleast := isLeast_pow_mul (p := p) hk hone hd
  rw [Nat.mul_div_cancel' (Nat.dvd_of_mod_eq_zero hmod)] at hleast
  rw [hleast, Option.map_eq_some_iff]
  constructor
  · rintro ⟨r, hr, rfl⟩
    obtain ⟨hle, hr⟩ := hcount.mp hr
    exact ⟨Nat.succ_le_succ hle, r, hr, rfl⟩
  · rintro ⟨hle, r, hr, rfl⟩
    exact ⟨r, hcount.mpr ⟨Nat.le_of_succ_le_succ hle, hr⟩, rfl⟩

theorem coprime_ten (h2 : d % 2 ≠ 0) (h5 : d % 5 ≠ 0) : d.Coprime 10 := by
  have htwo : Nat.Coprime 2 d :=
    Nat.prime_two.coprime_iff_not_dvd.mpr fun h => h2 (Nat.mod_eq_zero_of_dvd h)
  have hfive : Nat.Coprime 5 d :=
    Nat.prime_five.coprime_iff_not_dvd.mpr fun h => h5 (Nat.mod_eq_zero_of_dvd h)
  exact (Nat.Coprime.mul_left htwo hfive).symm

theorem placesOf?_eq_some_iff :
    placesOf? steps d = some p ↔ p ≤ steps ∧ IsLeast {j | d ∣ 10 ^ j} p := by
  induction steps generalizing d p with
  | zero =>
    have hleast : IsLeast {j | d ∣ 10 ^ j} 0 ↔ d = 1 :=
      ⟨fun h => Nat.dvd_one.mp h.1, fun h => ⟨h ▸ one_dvd _, fun _ _ => Nat.zero_le _⟩⟩
    rw [placesOf?, Option.ite_none_right_eq_some, Option.some.injEq, Nat.le_zero]
    constructor
    · rintro ⟨hd, rfl⟩
      exact ⟨rfl, hleast.mpr hd⟩
    · rintro ⟨rfl, h⟩
      exact ⟨hleast.mp h, rfl⟩
  | succ steps ih =>
    -- The exits: neither two nor five divides the denominator.
    have hexit : d % 2 ≠ 0 → d % 5 ≠ 0 →
        (p ≤ steps + 1 ∧ IsLeast {j | d ∣ 10 ^ j} p ↔ d = 1 ∧ p = 0) := by
      intro h2 h5
      rw [isLeast_pow_of_coprime (coprime_ten h2 h5)]
      exact and_iff_right_of_imp fun h => h.2 ▸ Nat.zero_le _
    unfold placesOf?
    split_ifs with h1 hone h10 h2 h5
    · rw [hexit (by omega) (by omega), Option.some.injEq, and_iff_right hone, eq_comm]
    · simp [hexit (by omega) (by omega), hone]
    · exact placesOf?_divided ih rfl (by decide) h10 (Nat.coprime_one_right _)
    · have hcoprime : Nat.Coprime 5 (d / 2) :=
        Nat.prime_five.coprime_iff_not_dvd.mpr fun h => by omega
      exact placesOf?_divided ih rfl (by decide) h2 hcoprime.symm
    · have hcoprime : Nat.Coprime 2 (d / 5) :=
        Nat.prime_two.coprime_iff_not_dvd.mpr fun h => by omega
      exact placesOf?_divided ih rfl (by decide) h5 hcoprime.symm
    · have hone : d ≠ 1 := by omega
      simp [hexit h2 h5, hone]

theorem mul_whole_iff {q : Rat} {n : Nat} (hn : n ≠ 0) :
    (∃ z : Int, q * n = z) ↔ q.den ∣ n := by
  constructor
  · rintro ⟨z, hz⟩
    have hq : q = Rat.divInt z n := by
      rw [← Rat.intCast_div_eq_divInt, ← hz, Int.cast_natCast,
        mul_div_cancel_right₀ q (by exact_mod_cast hn)]
    have hdvd : (q.den : Int) ∣ n := hq ▸ Rat.den_dvd z n
    exact_mod_cast hdvd
  · intro h
    exact ⟨_, (mul_den_whole h).symm⟩

/-- The decimal places of an exact number are the least number of places by which the point has to
move for the number to become whole, if they are at most thirteen, one more than the bound for
doubles. An exact number has none if it does not become whole within thirteen places. -/
theorem decimalPlaces_isLeast (q : Rat) :
    (∀ k, (exact q).decimalPlaces? = some k ↔
      IsLeast {j : Nat | ∃ z : Int, q * 10 ^ j = z} k ∧ k ≤ 13) ∧
    ((exact q).decimalPlaces? = none ↔ ∀ j ≤ 13, ∀ z : Int, q * 10 ^ j ≠ z) := by
  have hwhole : {j : Nat | ∃ z : Int, q * 10 ^ j = z} = {j | q.den ∣ 10 ^ j} := by
    ext j
    have h := mul_whole_iff (q := q) (pow_ne_zero j (by decide : 10 ≠ 0))
    push_cast at h
    exact h
  have hsome : ∀ k, (exact q).decimalPlaces? = some k ↔
      IsLeast {j : Nat | ∃ z : Int, q * 10 ^ j = z} k ∧ k ≤ 13 := by
    intro k
    rw [hwhole, and_comm]
    exact placesOf?_eq_some_iff
  refine ⟨hsome, ?_⟩
  constructor
  · intro hnone j hj z hz
    classical
    have hexists : ∃ j : Nat, ∃ z : Int, q * 10 ^ j = z := ⟨j, z, hz⟩
    have hleast : IsLeast {j : Nat | ∃ z : Int, q * 10 ^ j = z} (Nat.find hexists) :=
      ⟨Nat.find_spec hexists, fun i hi => Nat.find_min' hexists hi⟩
    have hcounted := (hsome _).mpr ⟨hleast, (hleast.2 ⟨z, hz⟩).trans hj⟩
    simp [hnone] at hcounted
  · intro hall
    rw [Option.eq_none_iff_forall_ne_some]
    intro k hk
    obtain ⟨⟨⟨z, hz⟩, -⟩, hle⟩ := (hsome k).mp hk
    exact hall k hle z hz

/-- The last denominator of a power of two whose places are counted, and the first whose are not. -/
example : (exact (mkRat 3 8192)).decimalPlaces? = some 13 ∧
    (exact (mkRat 3 16384)).decimalPlaces? = none := by decide

end SymbolicAlgebra.Value
