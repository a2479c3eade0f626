import Mathlib.Tactic.Linarith
import SymbolicAlgebra.Proofs.TermSimplification

/-!
# Adding like terms

Like terms are brought over a common denominator and their multipliers are added. The factors of the
denominator that come in stand on both sides, so no balance changes and the simplified sum is no
larger than the first of the terms. A term is combined with the first like one among others in this
way.
-/

namespace SymbolicAlgebra

open Outcome

variable {I : Interpretation}

namespace Term

/-- The number by which the factors of a term with exact coefficients are multiplied. -/
def coefficient (t : Term) : Rat :=
  match t.multiplier, t.divisor with
  | .exact m, .exact d => m / d
  | _, _ => 0

theorem coefficient_eq {t : Term} {m d : Rat} (hm : t.multiplier = .exact m)
    (hd : t.divisor = .exact d) : t.coefficient = m / d := by
  rw [coefficient, hm, hd]

/-- A term with the bottom of another on both sides, and with new coefficients. -/
def widened (s t : Term) (c d : Rat) : Term :=
  ⟨.exact c, .exact d, Factor.kept (s.top ++ t.bottom), Factor.kept (s.bottom ++ t.bottom)⟩

theorem Normal.isFoldable {t : Term} (h : t.Normal) : ∀ f ∈ t.top ++ t.bottom, f.IsFoldable := by
  obtain ⟨-, -, htop, hbottom⟩ := normal_iff.mp h
  intro f hf
  exact (List.mem_append.mp hf).elim (htop.isFoldable f) (hbottom.isFoldable f)

theorem Normal.isFoldable_widened {s t : Term} (hs : s.Normal) (ht : t.Normal) :
    (∀ f ∈ s.top ++ t.bottom, f.IsFoldable) ∧ ∀ f ∈ s.bottom ++ t.bottom, f.IsFoldable := by
  obtain ⟨-, -, hstop, hsbottom⟩ := normal_iff.mp hs
  obtain ⟨-, -, -, htbottom⟩ := normal_iff.mp ht
  constructor <;> intro f hf
  · exact (List.mem_append.mp hf).elim (hstop.isFoldable f) (htbottom.isFoldable f)
  · exact (List.mem_append.mp hf).elim (hsbottom.isFoldable f) (htbottom.isFoldable f)

theorem withCommonDenominator_eq {s t : Term} {m d e : Rat} (hs : s.Normal) (ht : t.Normal)
    (hm : s.multiplier = .exact m) (hd : s.divisor = .exact d) (he : t.divisor = .exact e)
    (hshares : s.sharesDenominator t = false) :
    s.withCommonDenominator t = .ok (s.widened t (m * e) (d * e)) := by
  obtain ⟨htop, hbottom⟩ := hs.isFoldable_widened ht
  simp [withCommonDenominator, hshares, hm, hd, he, Value.mul_exact, of_ok _ _ htop hbottom, widened]

theorem meaning?_widened {s t : Term} {c d n k l : Rat} (hs : s.Normal) (ht : t.Normal)
    (hn : Factor.product? I s.top = some n) (hk : Factor.product? I s.bottom = some k)
    (hl : Factor.product? I t.bottom = some l) (hd : d ≠ 0) (hk0 : k ≠ 0) (hl0 : l ≠ 0) :
    (s.widened t c d).meaning? I = some (c * n / (d * k)) := by
  obtain ⟨htop, hbottom⟩ := hs.isFoldable_widened ht
  refine meaning?_eq_some.mpr ⟨c, d, n * l, k * l, rfl, rfl,
    Factor.product?_kept htop (Factor.product?_append_eq_some.mpr ⟨n, l, hn, hl, rfl⟩),
    Factor.product?_kept hbottom (Factor.product?_append_eq_some.mpr ⟨k, l, hk, hl, rfl⟩),
    hd, mul_ne_zero hk0 hl0, ?_⟩
  field_simp

theorem weight_widened {s t : Term} {w : Tree → Int} (hw : w .one = 0) (c d : Rat) (hs : s.Normal)
    (ht : t.Normal) :
    Factor.weight w (s.widened t c d).top - Factor.weight w (s.widened t c d).bottom =
      Factor.weight w s.top - Factor.weight w s.bottom := by
  obtain ⟨htop, hbottom⟩ := hs.isFoldable_widened ht
  simp only [widened, Factor.weight_kept hw htop, Factor.weight_kept hw hbottom,
    Factor.weight_append]
  ring

/-- Like terms add up to a term with the factors of the first, maybe with the denominator of the
second on both sides. -/
theorem add_like {s t : Term} {a b : Rat} (hs : s.Normal) (ht : t.Normal)
    (ha : s.meaning? I = some a) (hb : t.meaning? I = some b) (hlike : s.isLike t = true) :
    ∃ r, s.add t = .ok (.term r) ∧ r.meaning? I = some (a + b) ∧
      r.coefficient = s.coefficient + t.coefficient ∧
      (r.top = s.top ∧ r.bottom = s.bottom ∨ ∃ c d, r = s.widened t c d) := by
  obtain ⟨htops, hbottoms⟩ := (isLike_iff ha hb).mp hlike
  have hshares := sharesDenominator_iff ha hb
  have hshares' := sharesDenominator_iff hb ha
  obtain ⟨m, d, n, k, hm, hd, hn, hk, hd0, hk0, rfl⟩ := meaning?_eq_some.mp ha
  obtain ⟨m', d', n', k', hm', hd', hn', hk', hd0', hk0', rfl⟩ := meaning?_eq_some.mp hb
  obtain rfl : n = n' :=
    Option.some.inj (hn.symm.trans ((Factor.product?_perm htops).trans hn'))
  obtain rfl : k = k' :=
    Option.some.inj (hk.symm.trans ((Factor.product?_perm hbottoms).trans hk'))
  by_cases hdiv : d = d'
  · -- the terms share their denominator as it is
    subst hdiv
    have hleft : s.withCommonDenominator t = .ok s := by
      simp [withCommonDenominator, hshares.mpr ⟨hd.trans hd'.symm, hbottoms⟩]
    have hright : t.withCommonDenominator s = .ok t := by
      simp [withCommonDenominator, hshares'.mpr ⟨hd'.trans hd.symm, hbottoms.symm⟩]
    refine ⟨{ s with multiplier := .exact (m + m') }, ?_, ?_, ?_, .inl ⟨rfl, rfl⟩⟩
    · simp [add, hleft, hright, hlike, hm, hm', Value.add_exact]
    · refine meaning?_eq_some.mpr ⟨m + m', d, n, k, rfl, hd, hn, hk, hd0, hk0, ?_⟩
      ring
    · rw [coefficient_eq hm hd, coefficient_eq hm' hd', ← add_div]
      exact coefficient_eq rfl hd
  · have hdiv' : ¬ (s.divisor = t.divisor) := by simpa [hd, hd'] using hdiv
    have hnot : s.sharesDenominator t = false :=
      Bool.eq_false_iff.mpr fun h => hdiv' (hshares.mp h).1
    have hnot' : t.sharesDenominator s = false :=
      Bool.eq_false_iff.mpr fun h => hdiv' (hshares'.mp h).1.symm
    have hleft := withCommonDenominator_eq hs ht hm hd hd' hnot
    have hright := withCommonDenominator_eq ht hs hm' hd' hd hnot'
    have hlike' : (s.widened t (m * d') (d * d')).isLike (t.widened s (m' * d) (d' * d)) = true := by
      apply (isLike_iff (meaning?_widened hs ht hn hk hk' (mul_ne_zero hd0 hd0') hk0 hk0)
        (meaning?_widened ht hs hn' hk' hk (mul_ne_zero hd0' hd0) hk0 hk0)).mpr
      exact ⟨Factor.kept_perm (htops.append hbottoms.symm),
        Factor.kept_perm (hbottoms.append hbottoms.symm)⟩
    refine ⟨s.widened t (m * d' + m' * d) (d * d'), ?_, ?_, ?_, .inr ⟨_, _, rfl⟩⟩
    · simp only [add, hleft, hright, ok_bind, hlike', if_true]
      rfl
    · rw [meaning?_widened hs ht hn hk hk' (mul_ne_zero hd0 hd0') hk0 hk0]
      congr 1
      field_simp
    · rw [coefficient_eq hm hd, coefficient_eq hm' hd', div_add_div _ _ hd0 hd0', mul_comm d m']
      exact coefficient_eq rfl rfl

theorem Within.factors {width degree effort : Nat} {t : Term} (ht : t.Within degree effort)
    (hwidth : Value.maxExactExponent + 2 ≤ width) (hdegree : degree ≤ Value.maxExactExponent) :
    ∀ f ∈ t.top ++ t.bottom, (Tree.power f).Fits 1 width ∧ f.base.effort ≤ effort := by
  intro f hf
  have hfits := Normal.fits hwidth t ht.normal (ht.degree_le.trans hdegree)
  exact ⟨(Tree.fits_term.mp hfits).2.2 f hf, (effort_le_iff.mp ht.effort_le).2 f hf⟩

/-- A term over another with the same factors has no other factors, at most thrice the degree, and
not many more factors than that. -/
theorem widened_bounds {width degree effort : Nat} {s t : Term} {c d : Rat}
    (hs : s.Within degree effort) (ht : t.Normal) (hwidth : Value.maxExactExponent + 2 ≤ width)
    (hdegree : degree ≤ Value.maxExactExponent) (hbottoms : s.bottom.Perm t.bottom) :
    (∀ f ∈ (s.widened t c d).top ++ (s.widened t c d).bottom,
        (Tree.power f).Fits 1 width ∧ f.base.effort ≤ effort) ∧
      (s.widened t c d).top.length + (s.widened t c d).bottom.length ≤ 3 * degree + 2 ∧
      (s.widened t c d).degree 1 ≤ 3 * degree := by
  obtain ⟨htop, hbottom⟩ := hs.normal.isFoldable_widened ht
  have hfactors := hs.factors hwidth hdegree
  have hpos := (effort_le_iff.mp hs.effort_le).1
  have hmem : ∀ f ∈ t.bottom, f ∈ s.top ++ s.bottom :=
    fun f hf => List.mem_append_right _ (hbottoms.mem_iff.mpr hf)
  have hplaceholder : (Tree.power Factor.placeholder).Fits 1 width ∧
      Factor.placeholder.base.effort ≤ effort := ⟨Factor.fits_placeholder 1, hpos⟩
  refine ⟨fun f hf => ?_, ?_, ?_⟩
  · rcases List.mem_append.mp hf with hf | hf
    · rcases Factor.mem_kept hf with hf | rfl
      · rcases List.mem_append.mp hf with hf | hf
        · exact hfactors f (List.mem_append_left _ hf)
        · exact hfactors f (hmem f hf)
      · exact hplaceholder
    · rcases Factor.mem_kept hf with hf | rfl
      · rcases List.mem_append.mp hf with hf | hf
        · exact hfactors f (List.mem_append_right _ hf)
        · exact hfactors f (hmem f hf)
      · exact hplaceholder
  all_goals
    have hsdegree := hs.degree_le
    have hlength := (Factor.normalSide_kept htop).length_le
    have hlength' := (Factor.normalSide_kept hbottom).length_le
    rw [Factor.totalDegree_kept htop, Factor.totalDegree_append] at hlength
    rw [Factor.totalDegree_kept hbottom, Factor.totalDegree_append] at hlength'
    have hperm : Factor.totalDegree 1 s.bottom = Factor.totalDegree 1 t.bottom :=
      Factor.totalDegree_perm hbottoms
    rw [degree_eq] at hsdegree
  · simp only [widened]
    omega
  · rw [degree_eq]
    simp only [widened, Factor.totalDegree_kept htop, Factor.totalDegree_kept hbottom,
      Factor.totalDegree_append]
    omega

theorem add_like_simplifyBy {canonical : Tree → Except Fault Tree}
    {width limit effort steps degree : Nat} {s t : Term} {a b : Rat}
    (hcanonical : Canonizes I width limit canonical) (heffort : effort ≤ limit)
    (hs : s.Within degree effort) (ht : t.Normal) (hdegree : degree ≤ Value.maxExactExponent)
    (ha : s.meaning? I = some a) (hb : t.meaning? I = some b) (hlike : s.isLike t = true)
    (hsteps : 3 * degree + 2 + 3 * effort * (3 * degree) ≤ steps) :
    ∃ r r', s.add t = .ok (.term r) ∧ r.simplifyBy steps canonical = .ok r' ∧
      r'.meaning? I = some (a + b) ∧ r'.Within degree effort := by
  obtain ⟨r, hr, hq, -, hsides⟩ := add_like hs.normal ht ha hb hlike
  obtain ⟨htops, hbottoms⟩ := (isLike_iff ha hb).mp hlike
  obtain ⟨hpos, hbases⟩ := effort_le_iff.mp hs.effort_le
  have hfactors : (∀ f ∈ r.top ++ r.bottom, (Tree.power f).Fits 1 width ∧ f.base.effort ≤ effort) ∧
      r.top.length + r.bottom.length ≤ 3 * degree + 2 ∧ r.degree 1 ≤ 3 * degree := by
    rcases hsides with ⟨htop, hbottom⟩ | ⟨c, d, rfl⟩
    · obtain ⟨-, -, hstop, hsbottom⟩ := normal_iff.mp hs.normal
      have hsdegree := hs.degree_le
      have hlength := hstop.length_le
      have hlength' := hsbottom.length_le
      rw [degree_eq] at hsdegree ⊢
      rw [htop, hbottom]
      exact ⟨hs.factors hcanonical.width_ge hdegree, by omega, by omega⟩
    · exact widened_bounds hs ht hcanonical.width_ge hdegree hbottoms
  have hweight : ∀ w, IsBounded I width limit w →
      Factor.weight w r.top - Factor.weight w r.bottom ≤ degree := by
    intro w hw
    have hle := hw.weight_le (Normal.fits hcanonical.width_ge s hs.normal
      (hs.degree_le.trans hdegree)) (hs.effort_le.trans (Nat.add_le_add_left heffort 1)) ha
    have hsum : Factor.weight w r.top - Factor.weight w r.bottom =
        Factor.weight w s.top - Factor.weight w s.bottom := by
      rcases hsides with ⟨htop, hbottom⟩ | ⟨c, d, rfl⟩
      · rw [htop, hbottom]
      · exact weight_widened (hw.one (hpos.trans heffort)) c d hs.normal ht
    have hdegree' : (s.degree 1 : Int) ≤ degree := by exact_mod_cast hs.degree_le
    omega
  have heffort' : r.effort ≤ 1 + effort :=
    effort_le_iff.mpr ⟨hpos, fun f hf => (hfactors.1 f hf).2⟩
  obtain ⟨r', hr', hq', hwithin⟩ := simplifyBy_ok hcanonical heffort hq heffort'
    (Product.affords_mono hsteps (affords_items hfactors.1 hfactors.2.1 hfactors.2.2)) hweight
  exact ⟨r, r', hr, hr', hq', hwithin⟩

theorem total?_cons_of {t : Term} {ts : List Term} {a b : Rat} (ha : t.meaning? I = some a)
    (hb : total? I ts = some b) : total? I (t :: ts) = some (a + b) :=
  total?_cons_eq_some.mpr ⟨a, b, ha, hb, rfl⟩

theorem isLike_of_degree {effort : Nat} {s t : Term} {a b : Rat} (ha : s.meaning? I = some a)
    (hb : t.meaning? I = some b) (hs : s.Within 0 effort) (ht : t.Within 0 effort) :
    s.isLike t = true := by
  have hsides : ∀ r : Term, r.Within 0 effort → r.top = [.placeholder] ∧ r.bottom = [.placeholder] := by
    intro r hr
    obtain ⟨-, -, htop, hbottom⟩ := normal_iff.mp hr.normal
    have hdegree := hr.degree_le
    rw [degree_eq] at hdegree
    exact ⟨htop.eq_placeholder (by omega), hbottom.eq_placeholder (by omega)⟩
  obtain ⟨hstop, hsbottom⟩ := hsides s hs
  obtain ⟨httop, htbottom⟩ := hsides t ht
  rw [isLike_iff ha hb, hstop, httop, hsbottom, htbottom]
  exact ⟨List.Perm.refl _, List.Perm.refl _⟩

/-- Combining a term with others keeps their sum and their bounds, and keeps a single term single if
there is no degree. -/
theorem combine_ok {canonical : Tree → Except Fault Tree} {width limit steps degree : Nat}
    {combined : List Term} {t : Term} {a b : Rat} (hcanonical : Canonizes I width limit canonical)
    (hcombined : ∀ s ∈ combined, s.Within degree limit) (ht : t.Within degree limit)
    (hdegree : degree ≤ Value.maxExactExponent) (ha : total? I combined = some a)
    (hb : t.meaning? I = some b) (hsteps : 3 * degree + 2 + 3 * limit * (3 * degree) ≤ steps) :
    ∃ combined', combine steps canonical combined t = .ok combined' ∧
      (∀ s ∈ combined', s.Within degree limit) ∧ total? I combined' = some (a + b) ∧
      totalEffort combined' ≤ totalEffort combined + t.effort ∧
      (degree = 0 → combined.length ≤ 1 → combined'.length ≤ 1) := by
  induction combined generalizing a with
  | nil =>
    obtain rfl : (0 : Rat) = a := Option.some.inj ha
    refine ⟨[t], rfl, List.forall_mem_singleton.mpr ht, ?_, by simp [totalEffort], by simp⟩
    rw [zero_add, ← add_zero b]
    exact total?_cons_of hb rfl
  | cons other rest ih =>
    obtain ⟨hother, hrest⟩ := List.forall_mem_cons.mp hcombined
    obtain ⟨x, y, hx, hy, rfl⟩ := total?_cons_eq_some.mp ha
    by_cases hlike : other.isLike t = true
    · -- the term is added to this one, which disappears if the sum is zero
      have heffort : other.effort - 1 ≤ limit := by have := hother.effort_le; omega
      have hbudget : 3 * other.degree 1 + 2 + 3 * (other.effort - 1) * (3 * other.degree 1) ≤
          steps := by
        refine le_trans (Nat.add_le_add ?_ (Nat.mul_le_mul ?_ ?_)) hsteps
        · exact Nat.add_le_add_right (Nat.mul_le_mul_left 3 hother.degree_le) 2
        · exact Nat.mul_le_mul_left 3 heffort
        · exact Nat.mul_le_mul_left 3 hother.degree_le
      obtain ⟨r, total, hr, htotal, hmeaning, hwithin⟩ := add_like_simplifyBy hcanonical heffort
        hother.exact ht.normal (hother.degree_le.trans hdegree) hx hb hlike hbudget
      obtain ⟨z, hz⟩ := Normal.isZero_ok total hwithin.normal
      have hle := hwithin.effort_le
      have hpos := other.effort_pos
      cases z with
      | true =>
        have hzero := total.isZero_sound hz hmeaning
        refine ⟨rest, by simp [combine, hlike, hr, Tree.toTerm, htotal, hz], hrest, ?_, ?_, ?_⟩
        · rw [hy]
          congr 1
          linarith
        · simp only [totalEffort]
          omega
        · intro _ hlength
          exact (Nat.le_succ _).trans hlength
      | false =>
        refine ⟨total :: rest, by simp [combine, hlike, hr, Tree.toTerm, htotal, hz],
          List.forall_mem_cons.mpr ⟨hwithin.mono hother.degree_le heffort, hrest⟩, ?_, ?_, ?_⟩
        · rw [total?_cons_of hmeaning hy]
          congr 1
          ring
        · simp only [totalEffort]
          omega
        · exact fun _ hlength => hlength
    · obtain ⟨combined', hcombine, hwithin, htotal, hefforts, hlength⟩ := ih hrest hy
      refine ⟨other :: combined', by simp [combine, hlike, hcombine],
        List.forall_mem_cons.mpr ⟨hother, hwithin⟩, ?_, ?_, ?_⟩
      · rw [total?_cons_of hx htotal, add_assoc]
      · simp only [totalEffort]
        omega
      · rintro rfl -
        exact absurd (isLike_of_degree hx hb hother ht) hlike

end Term

end SymbolicAlgebra
