import Mathlib.Algebra.Order.Field.Power
import Mathlib.Data.Nat.Digits.Defs
import Mathlib.Tactic.FieldSimp
import Mathlib.Tactic.Linarith
import Mathlib.Tactic.NormNum
import Mathlib.Tactic.Positivity
import Mathlib.Tactic.Ring
import SymbolicAlgebra.Decimal.Notation

/-!
# Rounding to significant digits

`HasDigits` says that a number needs no more than so many decimal digits, wherever its point is, and
`RoundsTo` that one number with so many digits is the nearest to another, a half going to the even
digit. The quotient of two whole numbers to a number of significant digits is their ratio rounded in
this sense.
-/

namespace SymbolicAlgebra

theorem exists_part (n : Nat) {d : Nat} (hd : d ≠ 0) :
    ∃ part : Rat, (n : Rat) / d = (n / d : Nat) + part ∧ 0 ≤ part ∧ part < 1 ∧
      part * (2 * d) = (2 * (n % d) : Nat) := by
  have hd' : (0 : Rat) < d := by exact_mod_cast Nat.pos_of_ne_zero hd
  refine ⟨(n % d : Nat) / d, ?_, by positivity, ?_, ?_⟩
  · have hsum : (n : Rat) = d * (n / d : Nat) + (n % d : Nat) := by
      exact_mod_cast (Nat.div_add_mod n d).symm
    rw [hsum]
    field_simp
  · rw [div_lt_one hd']
    exact_mod_cast Nat.mod_lt n (Nat.pos_of_ne_zero hd)
  · push_cast
    field_simp

/-- Rounding goes half a step at most, and half a step only to an even number. -/
theorem abs_roundQuotient_sub_le (n : Nat) {d : Nat} (hd : d ≠ 0) :
    |(roundQuotient n d : Rat) - n / d| ≤ 1 / 2 ∧
      (|(roundQuotient n d : Rat) - n / d| = 1 / 2 → Even (roundQuotient n d)) := by
  have hd' : (0 : Rat) < d := by exact_mod_cast Nat.pos_of_ne_zero hd
  obtain ⟨part, hpart, hnonneg, hlt, hhalf⟩ := exists_part n hd
  rw [hpart]
  unfold roundQuotient
  dsimp only
  split
  · next hlow =>
    have hlow' : ((2 * (n % d) : Nat) : Rat) < d := by exact_mod_cast hlow
    have hbelow : part < 1 / 2 := by nlinarith
    rw [sub_add_cancel_left, abs_neg, abs_of_nonneg hnonneg]
    exact ⟨hbelow.le, fun h => absurd h hbelow.ne⟩
  split
  · next hhigh =>
    have hhigh' : (d : Rat) < (2 * (n % d) : Nat) := by exact_mod_cast hhigh
    have habove : 1 / 2 < part := by nlinarith
    push_cast
    rw [add_sub_add_left_eq_sub, abs_of_pos (by linarith)]
    exact ⟨by linarith, fun h => by linarith⟩
  · next hlow hhigh =>
    have hequal : ((2 * (n % d) : Nat) : Rat) = d := by
      exact_mod_cast (by omega : 2 * (n % d) = d)
    have hmiddle : part = 1 / 2 := by nlinarith
    have heven : Even (n / d + n / d % 2) := by
      rw [Nat.even_iff]
      omega
    refine ⟨?_, fun _ => heven⟩
    rw [Nat.cast_add, add_sub_add_left_eq_sub, hmiddle]
    rcases Nat.mod_two_eq_zero_or_one (n / d) with h | h
    · norm_num [h]
    · norm_num [h]

/-- No whole number is nearer, and if another one is as near, the rounded one is even. -/
theorem roundQuotient_nearest (n : Nat) {d : Nat} (hd : d ≠ 0) (z : Nat) :
    |(roundQuotient n d : Rat) - n / d| ≤ |(z : Rat) - n / d| ∧
      (|(z : Rat) - n / d| = |(roundQuotient n d : Rat) - n / d| →
        z = roundQuotient n d ∨ Even (roundQuotient n d)) := by
  obtain ⟨hhalf, heven⟩ := abs_roundQuotient_sub_le n hd
  rcases eq_or_ne z (roundQuotient n d) with rfl | hne
  · exact ⟨le_rfl, fun _ => .inl rfl⟩
  have hstep : (1 : Rat) ≤ |(z : Rat) - roundQuotient n d| := by
    exact_mod_cast Int.one_le_abs (show (z : Int) - roundQuotient n d ≠ 0 by omega)
  have htriangle := abs_sub_le (z : Rat) (n / d) (roundQuotient n d)
  rw [abs_sub_comm (n / d : Rat)] at htriangle
  exact ⟨by linarith, fun h => .inr (heven (by linarith))⟩

namespace Decimal

variable {n d : Nat}

theorem scaled_ratio (n d : Nat) (e : Int) :
    ((scaled n d e).1 : Rat) / (scaled n d e).2 = n / d * 10 ^ e := by
  unfold scaled
  split
  · next h =>
    obtain ⟨k, rfl⟩ := Int.eq_ofNat_of_zero_le h
    simp [mul_div_right_comm]
  · next h =>
    obtain ⟨k, hk⟩ := Int.eq_ofNat_of_zero_le (show 0 ≤ -e by omega)
    obtain rfl : e = -k := by omega
    simp [div_eq_mul_inv, mul_assoc, mul_comm]

theorem scaled_ne_zero (hd : d ≠ 0) (e : Int) : (scaled n d e).2 ≠ 0 := by
  unfold scaled
  split
  · exact hd
  · exact Nat.mul_ne_zero hd (pow_ne_zero _ (by decide))

/-- A number that is not zero has a digit in the first of its places. -/
theorem pow_length_toDigits_le {n : Nat} (hn : n ≠ 0) :
    10 ^ ((Nat.toDigits 10 n).length - 1) ≤ n := by
  rcases Nat.eq_zero_or_pos ((Nat.toDigits 10 n).length - 1) with h | h
  · rw [h]
    exact Nat.one_le_iff_ne_zero.mpr hn
  · have hlength := (Nat.length_toDigits_le_iff (b := 10) (n := n) (by decide) h).not
    rw [not_lt] at hlength
    exact hlength.mp (by omega)

theorem lt_pow_length_toDigits (n : Nat) : n < 10 ^ (Nat.toDigits 10 n).length :=
  (Nat.length_toDigits_le_iff (by decide) Nat.length_toDigits_pos).mp le_rfl

theorem integerDigits_bounds (hn : n ≠ 0) (hd : d ≠ 0) :
    (10 : Rat) ^ (integerDigits n d - 1) ≤ n / d ∧ (n : Rat) / d < 10 ^ integerDigits n d := by
  have hn' : (0 : Rat) < n := by exact_mod_cast Nat.pos_of_ne_zero hn
  have hd' : (0 : Rat) < d := by exact_mod_cast Nat.pos_of_ne_zero hd
  unfold integerDigits
  split
  · next h =>
    have hwhole : n / d ≠ 0 := Nat.div_ne_zero_iff.mpr ⟨hd, h⟩
    obtain ⟨k, hk⟩ : ∃ k, (Nat.toDigits 10 (n / d)).length = k + 1 :=
      Nat.exists_eq_succ_of_ne_zero Nat.length_toDigits_pos.ne'
    have hlow := pow_length_toDigits_le hwhole
    have hhigh := lt_pow_length_toDigits (n / d)
    rw [hk] at hlow hhigh ⊢
    rw [Nat.add_sub_cancel, Nat.le_div_iff_mul_le (Nat.pos_of_ne_zero hd)] at hlow
    rw [Nat.div_lt_iff_lt_mul (Nat.pos_of_ne_zero hd)] at hhigh
    rw [le_div_iff₀ hd', div_lt_iff₀ hd', show ((k + 1 : Nat) : Int) - 1 = k by omega]
    exact ⟨by exact_mod_cast hlow, by exact_mod_cast hhigh⟩
  · next h =>
    have hwhole : (d - 1) / n ≠ 0 := Nat.div_ne_zero_iff.mpr ⟨hn, by omega⟩
    obtain ⟨k, hk⟩ : ∃ k, (Nat.toDigits 10 ((d - 1) / n)).length = k + 1 :=
      Nat.exists_eq_succ_of_ne_zero Nat.length_toDigits_pos.ne'
    have hlow := pow_length_toDigits_le hwhole
    have hhigh := lt_pow_length_toDigits ((d - 1) / n)
    rw [hk] at hlow hhigh ⊢
    rw [Nat.add_sub_cancel, Nat.le_div_iff_mul_le (Nat.pos_of_ne_zero hn)] at hlow
    rw [Nat.div_lt_iff_lt_mul (Nat.pos_of_ne_zero hn)] at hhigh
    have hlow' : (10 : Rat) ^ k * n < d := by exact_mod_cast (by omega : 10 ^ k * n < d)
    have hhigh' : (d : Rat) ≤ 10 ^ (k + 1) * n := by
      exact_mod_cast (by omega : d ≤ 10 ^ (k + 1) * n)
    rw [le_div_iff₀ hd', div_lt_iff₀ hd',
      show (1 : Int) - (k + 1 : Nat) - 1 = -(k + 1 : Nat) by omega,
      show (1 : Int) - (k + 1 : Nat) = -(k : Nat) by omega, zpow_neg, zpow_neg, zpow_natCast,
      zpow_natCast, inv_mul_le_iff₀ (by positivity), lt_inv_mul_iff₀ (by positivity)]
    exact ⟨hhigh', hlow'⟩

def toRat (x : Decimal) : Rat := x.digits * 10 ^ x.exponent

theorem toRat_stripped (x : Decimal) : x.stripped.toRat = x.toRat := by
  fun_induction stripped x with
  | case1 x h => simp [toRat, h]
  | case2 x h hmod ih =>
    rw [ih]
    have hdigits : (x.digits : Rat) = (x.digits / 10 : Nat) * 10 := by
      exact_mod_cast (Nat.div_mul_cancel (Nat.dvd_of_mod_eq_zero hmod)).symm
    rw [toRat, toRat, hdigits, zpow_add₀ (by norm_num), zpow_one]
    ring
  | case3 x h hmod => rfl

theorem leadingExponent_le_iff {x : Decimal} (hx : 0 < x.toRat) {e : Int} :
    x.leadingExponent ≤ e ↔ x.toRat < 10 ^ (e + 1) := by
  have hdigits : x.digits ≠ 0 := by
    intro h
    simp [toRat, h] at hx
  obtain ⟨k, hk⟩ : ∃ k, (Nat.toDigits 10 x.digits).length = k + 1 :=
    Nat.exists_eq_succ_of_ne_zero Nat.length_toDigits_pos.ne'
  have hlow : (10 : Rat) ^ (k : Int) ≤ x.digits := by
    have h := pow_length_toDigits_le hdigits
    rw [hk] at h
    exact_mod_cast h
  have hhigh : (x.digits : Rat) < 10 ^ ((k : Int) + 1) := by
    have h := (Nat.length_toDigits_le_iff (b := 10) (by decide) k.succ_pos).mp hk.le
    exact_mod_cast h
  have hten : (0 : Rat) < 10 ^ x.exponent := by positivity
  have hlow' := mul_le_mul_of_nonneg_right hlow hten.le
  have hhigh' := mul_lt_mul_of_pos_right hhigh hten
  rw [← zpow_add₀ (by norm_num)] at hlow' hhigh'
  have hleading : x.leadingExponent = k + x.exponent := by
    rw [leadingExponent, digitChars, hk]
    push_cast
    ring
  rw [hleading]
  constructor
  · intro hle
    exact hhigh'.trans_le (zpow_le_zpow_right₀ (by norm_num) (by omega))
  · intro hlt
    have := (zpow_lt_zpow_iff_right₀ (by norm_num : (1 : Rat) < 10)).mp (hlow'.trans_lt hlt)
    omega

/-- A number of no more than so many significant digits. -/
def HasDigits (count : Nat) (x : Rat) : Prop :=
  ∃ (m : Nat) (e : Int), m < 10 ^ count ∧ |x| = m * 10 ^ e

/-- The second number is the nearest to the first among those of so many significant digits. If
another one is as near, the last of its digits is even. -/
structure RoundsTo (count : Nat) (q r : Rat) : Prop where
  hasDigits : HasDigits count r
  nearest {x : Rat} : HasDigits count x → |r - q| ≤ |x - q|
  even {x : Rat} : HasDigits count x → |x - q| = |r - q| → x ≠ r →
    ∃ (m : Nat) (e : Int), Even m ∧ 10 ^ (count - 1) ≤ m ∧ m < 10 ^ count ∧ |r| = m * 10 ^ e

variable {count : Nat} {q r : Rat}

theorem RoundsTo.eq_iff (h : RoundsTo count q r) : r = q ↔ HasDigits count q := by
  constructor
  · rintro rfl
    exact h.hasDigits
  · intro hq
    simpa [sub_eq_zero] using h.nearest hq

theorem HasDigits.neg (h : HasDigits count r) : HasDigits count (-r) := by
  simpa [HasDigits] using h

theorem RoundsTo.neg (h : RoundsTo count q r) : RoundsTo count (-q) (-r) := by
  have habs : ∀ x : Rat, |x - -q| = |-x - q| := fun x => by
    rw [← abs_neg]
    congr 1
    ring
  refine ⟨h.hasDigits.neg, fun {x} hx => ?_, fun {x} hx hsame hne => ?_⟩
  · rw [habs, habs, neg_neg]
    exact h.nearest hx.neg
  · rw [habs, habs, neg_neg] at hsame
    simpa using h.even hx.neg hsame (by rintro rfl; simp at hne)

/-- A fraction with all its digits before the point is rounded to the nearest number of as many
digits by rounding it to a whole number. -/
theorem roundQuotient_nearest_of_le (hcount : count ≠ 0) (hd : d ≠ 0)
    (hlow : (10 : Rat) ^ (count - 1) ≤ n / d) {m : Nat} (hm : m < 10 ^ count) (k : Int) :
    |(roundQuotient n d : Rat) - n / d| ≤ |(m : Rat) * 10 ^ k - n / d| ∧
      (|(m : Rat) * 10 ^ k - n / d| = |(roundQuotient n d : Rat) - n / d| →
        (m : Rat) * 10 ^ k = roundQuotient n d ∨ Even (roundQuotient n d)) := by
  rcases le_or_gt 0 k with hk | hk
  · obtain ⟨k, rfl⟩ := Int.eq_ofNat_of_zero_le hk
    have hwhole := roundQuotient_nearest n hd (m * 10 ^ k)
    push_cast at hwhole
    rw [zpow_natCast]
    refine ⟨hwhole.1, fun h => (hwhole.2 h).imp_left fun heq => ?_⟩
    rw [← heq]
    push_cast
    rfl
  -- With a digit after the point it is further off than the least number of so many digits.
  · have hbelow : (m : Rat) * 10 ^ k < (10 ^ (count - 1) : Nat) := by
      have hm' : (m : Rat) < 10 ^ count := by exact_mod_cast hm
      have hshift : (10 : Rat) ^ k ≤ 10 ^ (-1 : Int) :=
        zpow_le_zpow_right₀ (by norm_num) (by omega)
      have hpow : (10 : Rat) ^ count = 10 ^ (count - 1) * 10 := by
        rw [← pow_succ, Nat.sub_add_cancel (Nat.pos_of_ne_zero hcount)]
      rw [zpow_neg_one] at hshift
      push_cast
      nlinarith
    have hleast := (roundQuotient_nearest n hd (10 ^ (count - 1))).1
    have hlow' : ((10 ^ (count - 1) : Nat) : Rat) ≤ n / d := by exact_mod_cast hlow
    have hfurther : |((10 ^ (count - 1) : Nat) : Rat) - n / d| < |(m : Rat) * 10 ^ k - n / d| := by
      rw [abs_of_nonpos (by linarith), abs_of_neg (by linarith)]
      linarith
    exact ⟨(hleast.trans_lt hfurther).le, fun h => absurd h (hleast.trans_lt hfurther).ne'⟩

/-- The quotient is the fraction, scaled to have all its digits before the point, rounded to a whole
number. -/
theorem toRat_quotient (hcount : count ≠ 0) (hd : d ≠ 0) :
    (quotient count n d).toRat =
      roundQuotient (scaled n d (-(integerDigits n d - count))).1
          (scaled n d (-(integerDigits n d - count))).2 *
        10 ^ (integerDigits n d - count) := by
  have hpos := Nat.pos_of_ne_zero (scaled_ne_zero (n := n) hd (-(integerDigits n d - count)))
  unfold quotient
  dsimp only
  split
  · next h => rw [toRat_stripped, toRat, roundQuotient_of_dvd hpos (Nat.dvd_of_mod_eq_zero h)]
  split
  · next h =>
    obtain ⟨k, rfl⟩ := Nat.exists_eq_succ_of_ne_zero hcount
    rw [h, toRat, zpow_add₀ (by norm_num)]
    push_cast [Nat.pow_eq, Nat.succ_eq_add_one]
    ring
  · rfl

theorem scaled_bounds (hcount : count ≠ 0) (hn : n ≠ 0) (hd : d ≠ 0) :
    (10 : Rat) ^ (count - 1) ≤ n / d * 10 ^ (-(integerDigits n d - count)) ∧
      (n : Rat) / d * 10 ^ (-(integerDigits n d - count)) < 10 ^ count := by
  obtain ⟨hlow, hhigh⟩ := integerDigits_bounds hn hd
  have hpow : ∀ a : Int, (10 : Rat) ^ a * 10 ^ (-(integerDigits n d - count)) =
      10 ^ (a - integerDigits n d + count) := fun a => by
    rw [← zpow_add₀ (by norm_num)]
    congr 1
    ring
  have hten : (0 : Rat) < 10 ^ (-(integerDigits n d - count)) := by positivity
  have hlow' := mul_le_mul_of_nonneg_right hlow hten.le
  have hhigh' := mul_lt_mul_of_pos_right hhigh hten
  rw [hpow, show integerDigits n d - 1 - integerDigits n d + count = (count - 1 : Nat) by omega,
    zpow_natCast] at hlow'
  rw [hpow, sub_self, zero_add, zpow_natCast] at hhigh'
  exact ⟨hlow', hhigh'⟩

/-- Such a fraction rounded has as many digits, the last of them even if the whole number is. -/
theorem exists_digits_roundQuotient (hcount : 2 ≤ count) (hd : d ≠ 0)
    (hlow : (10 : Rat) ^ (count - 1) ≤ n / d) (hhigh : (n : Rat) / d < 10 ^ count) (e : Int) :
    ∃ (m : Nat) (f : Int), 10 ^ (count - 1) ≤ m ∧ m < 10 ^ count ∧
      (roundQuotient n d : Rat) * 10 ^ e = m * 10 ^ f ∧ (Even (roundQuotient n d) → Even m) := by
  have hleast := (roundQuotient_nearest n hd (10 ^ (count - 1))).1
  have hlimit := (roundQuotient_nearest n hd (10 ^ count)).1
  push_cast at hleast hlimit
  rw [abs_of_nonpos (sub_nonpos.mpr hlow), abs_le] at hleast
  rw [abs_of_pos (sub_pos.mpr hhigh), abs_le] at hlimit
  have hleast' : 10 ^ (count - 1) ≤ roundQuotient n d := by
    exact_mod_cast (by linarith : (10 : Rat) ^ (count - 1) ≤ roundQuotient n d)
  have hlimit' : roundQuotient n d ≤ 10 ^ count := by
    exact_mod_cast (by linarith : (roundQuotient n d : Rat) ≤ 10 ^ count)
  rcases hlimit'.lt_or_eq with h | h
  · exact ⟨_, e, hleast', h, rfl, id⟩
  · obtain ⟨k, rfl⟩ : ∃ k, count = k + 2 := ⟨count - 2, by omega⟩
    refine ⟨10 ^ (k + 1), e + 1, le_rfl, ?_, ?_, fun _ => ?_⟩
    · exact Nat.pow_lt_pow_right (by decide) (by omega)
    · rw [h, zpow_add₀ (by norm_num)]
      push_cast
      ring
    · exact Nat.even_pow.mpr ⟨by decide, by omega⟩

theorem RoundsTo.of_pos {even : Prop} {m : Nat} {e : Int} (hq : 0 < q) (hr : 0 < r)
    (hleast : 10 ^ (count - 1) ≤ m) (hlimit : m < 10 ^ count) (hvalue : r = m * 10 ^ e)
    (heven : even → Even m)
    (hnearest : ∀ (k : Nat) (f : Int), k < 10 ^ count →
      |r - q| ≤ |k * 10 ^ f - q| ∧ (|k * 10 ^ f - q| = |r - q| → k * 10 ^ f = r ∨ even)) :
    RoundsTo count q r := by
  have hdigits : |r| = m * 10 ^ e := by rw [abs_of_pos hr, hvalue]
  have hmagnitude : ∀ x : Rat, |(|x| - q)| ≤ |x - q| := fun x => by
    have h := abs_abs_sub_abs_le x q
    rwa [abs_of_pos hq] at h
  refine ⟨⟨m, e, hlimit, hdigits⟩, fun {x} ⟨k, f, hk, hx⟩ => ?_,
    fun {x} ⟨k, f, hk, hx⟩ hsame hne => ?_⟩
  · have hle := (hnearest k f hk).1
    rw [← hx] at hle
    exact hle.trans (hmagnitude x)
  · obtain ⟨hle, hties⟩ := hnearest k f hk
    rw [← hx] at hle hties
    have hsame' : |(|x| - q)| = |x - q| :=
      le_antisymm (hmagnitude x) (hsame.le.trans hle)
    have hnonneg : 0 ≤ x := by
      by_contra hneg
      rw [abs_of_neg (not_le.mp hneg), abs_of_neg (a := x - q) (by linarith)] at hsame'
      rcases abs_cases (-x - q) with h | h <;> linarith
    rw [abs_of_nonneg hnonneg] at hties
    exact ⟨m, e, heven ((hties hsame).resolve_left hne), hleast, hlimit, hdigits⟩

theorem quotient_pos (hcount : 2 ≤ count) (hn : n ≠ 0) (hd : d ≠ 0) :
    0 < (quotient count n d).toRat := by
  have hcount' : count ≠ 0 := by omega
  obtain ⟨hlow, hhigh⟩ := scaled_bounds hcount' hn hd
  rw [← scaled_ratio] at hlow hhigh
  obtain ⟨m, f, hleast, -, hvalue, -⟩ := exists_digits_roundQuotient hcount (scaled_ne_zero hd _)
    hlow hhigh (integerDigits n d - count)
  have hm : 0 < m := lt_of_lt_of_le (by positivity) hleast
  rw [toRat_quotient hcount' hd, hvalue]
  positivity

theorem roundsTo_quotient (hcount : 2 ≤ count) (hn : n ≠ 0) (hd : d ≠ 0) :
    RoundsTo count (n / d) (quotient count n d).toRat := by
  have hcount' : count ≠ 0 := by omega
  obtain ⟨e, he⟩ : ∃ e, e = integerDigits n d - count := ⟨_, rfl⟩
  obtain ⟨⟨n', d'⟩, hscaled⟩ : ∃ scale, scaled n d (-e) = scale := ⟨_, rfl⟩
  have hratio := scaled_ratio n d (-e)
  have hd' := scaled_ne_zero (n := n) hd (-e)
  obtain ⟨hlow, hhigh⟩ := scaled_bounds hcount' hn hd
  rw [← he, ← hratio] at hlow hhigh
  rw [toRat_quotient hcount' hd, ← he]
  rw [hscaled] at hratio hd' hlow hhigh ⊢
  dsimp only at hratio hd' hlow hhigh ⊢
  have hten : (0 : Rat) < 10 ^ e := by positivity
  have hdistance : ∀ y : Rat, |y * 10 ^ e - n / d| = |y - n' / d'| * 10 ^ e := fun y => by
    rw [hratio, zpow_neg, ← abs_of_pos hten, ← abs_mul, abs_of_pos hten]
    congr 1
    field_simp
  obtain ⟨m, f, hleast, hlimit, hvalue, heven⟩ :=
    exists_digits_roundQuotient hcount hd' hlow hhigh e
  have hq : (0 : Rat) < n / d := by
    have := Nat.pos_of_ne_zero hn
    have := Nat.pos_of_ne_zero hd
    positivity
  have hr := quotient_pos hcount hn hd
  rw [toRat_quotient hcount' hd, ← he, hscaled] at hr
  refine .of_pos hq hr hleast hlimit hvalue heven fun k g hk => ?_
  obtain ⟨hle, hties⟩ := roundQuotient_nearest_of_le hcount' hd' hlow hk (g - e)
  have hscale : (k : Rat) * 10 ^ g = k * 10 ^ (g - e) * 10 ^ e := by
    rw [mul_assoc, ← zpow_add₀ (by norm_num), sub_add_cancel]
  rw [hscale, hdistance, hdistance]
  exact ⟨mul_le_mul_of_nonneg_right hle hten.le,
    fun h => (hties (mul_right_cancel₀ hten.ne' h)).imp_left (congrArg (· * _))⟩

end Decimal

end SymbolicAlgebra
