import SymbolicAlgebra.Expand
import SymbolicAlgebra.Proofs.Growth

/-!
# Sums multiplied out

A sum is multiplied by a tree or by another sum term by term. The product has the product of the
values, and its degree, the number of factors of its terms and the effort of its terms are bounded
by those of the two parts. Where the product is simplified, its terms are normal.
-/

namespace SymbolicAlgebra

open Outcome

variable {I : Interpretation} {width : Nat}

/-- The number of factors that a normal term of a degree with exact powers has at most. -/
def Tree.normalWidth : Nat := Value.maxExactExponent + 2

/-- The tree has a value and fits, with bounds on its degree and effort. -/
structure Tree.Stands (I : Interpretation) (width degree effort : Nat) (q : Rat) (t : Tree) :
    Prop where
  meaning : t.meaning? I = some q
  fits : t.Fits 1 width
  degree_le : t.degree 1 ≤ degree
  effort_le : t.effort ≤ effort

namespace Tree

/-- As a factor a tree is no larger than on its own. -/
theorem toFactor_fits {t : Tree} (h : t.Fits 1 width) :
    Factor.AllFit width t.effort [t.toFactor] ∧ t.toFactor.degree 1 = t.degree 1 := by
  have hfirst : Factor.AllFit width t.effort [⟨t, .one⟩] ∧
      Factor.degree 1 ⟨t, .one⟩ = t.degree 1 := by
    have hdegree : Factor.degree 1 ⟨t, .one⟩ = t.degree 1 := by
      simp [Factor.degree, ← whole_one]
    refine ⟨List.forall_mem_singleton.mpr ⟨fits_power.mpr ⟨?_, ?_, h⟩, le_rfl⟩, hdegree⟩
    · exact hdegree.trans_le h.degree_le
    · exact ⟨1, by decide, whole_one.symm⟩
  cases t with
  | power f =>
    obtain ⟨base, exponent⟩ := f
    exact ⟨List.forall_mem_singleton.mpr ⟨h, Nat.le_add_left _ _⟩, rfl⟩
  | _ => exact hfirst

end Tree

/-- The terms of a sum that fits are slim. -/
theorem Tree.Fits.slim {width' degree : Nat} {ts : List Term} (h : (Tree.sum ts).Fits 1 width')
    (hwidth : width' ≤ width) (hdegree : (Tree.sum ts).degree 1 ≤ degree) :
    ∀ t ∈ ts, t.IsSlim width width' degree := by
  intro t ht
  obtain ⟨-, hlength, hfits⟩ := fits_term.mp ((fits_sum.mp h).2 t ht)
  have hle : t.degree 1 ≤ Term.highestDegree 1 ts := Term.highestDegree_le_iff.mp le_rfl t ht
  exact ⟨fun f hf => (hfits f hf).mono le_rfl hwidth, hlength,
    (hle.trans (le_max_right 1 _)).trans hdegree⟩

namespace Term

variable {count count' degree degree' : Nat} {s t : Term} {a b : Rat}

theorem two_le_effort (t : Term) : 2 ≤ t.effort := by
  have hpos : 1 ≤ Factor.highestEffort t.top := (Factor.highestEffort_le_iff.mp le_rfl).1
  rw [t.effort_eq]
  omega

theorem effort_eq_one_add (t : Term) : ∃ e, 1 ≤ e ∧ t.effort = 1 + e :=
  ⟨t.effort - 1, by have := t.two_le_effort; omega, by have := t.two_le_effort; omega⟩

theorem scale_slim {q : Rat} (c : Rat) (hs : s.IsSlim width count degree)
    (hq : s.meaning? I = some q) :
    ∃ u, s.scale (.exact c) = .ok u ∧ u.IsSlim width count degree ∧ u.effort = s.effort := by
  obtain ⟨m, -, -, -, hm, -⟩ := meaning?_eq_some.mp hq
  refine ⟨{ s with multiplier := .exact (m * c) }, by simp [scale, hm, Value.mul_exact], ?_, ?_⟩
  · refine ⟨hs.fits, hs.length_le, ?_⟩
    have hdegree := hs.degree_le
    rwa [degree_eq] at hdegree ⊢
  · rw [effort_eq, effort_eq]

theorem mul_slim (hwidth : 2 ≤ width) (hs : s.IsSlim width count degree)
    (ht : t.IsSlim width count' degree') (ha : s.meaning? I = some a) (hb : t.meaning? I = some b) :
    ∃ u, s.mul t = .ok u ∧ u.IsSlim width (count + count' + 2) (degree + degree') ∧
      u.effort ≤ s.effort * t.effort := by
  obtain ⟨m, d, n, k, hm, hd, hn, hk, hd0, hk0, -⟩ := meaning?_eq_some.mp ha
  obtain ⟨m', d', n', k', hm', hd', hn', hk', hd0', hk0', -⟩ := meaning?_eq_some.mp hb
  obtain ⟨e, hpos, he⟩ := s.effort_eq_one_add
  obtain ⟨e', hpos', he'⟩ := t.effort_eq_one_add
  obtain ⟨htop, hbottom⟩ := hs.allFit (he.le.trans (Nat.add_le_add_left (le_max_left e e') 1))
  obtain ⟨htop', hbottom'⟩ := ht.allFit (he'.le.trans (Nat.add_le_add_left (le_max_right e e') 1))
  obtain ⟨u, hu, -, hslim, heffort⟩ := of_fits (m := m * m') hwidth (htop.append htop')
    (hbottom.append hbottom') (hpos.trans (le_max_left e e'))
    (Factor.product?_append_eq_some.mpr ⟨n, n', hn, hn', rfl⟩)
    (Factor.product?_append_eq_some.mpr ⟨k, k', hk, hk', rfl⟩)
    (mul_ne_zero hd0 hd0') (mul_ne_zero hk0 hk0')
  refine ⟨u, by simp [mul, hm, hm', hd, hd', Value.mul_exact, hu], hslim.mono ?_ ?_, ?_⟩
  · have hlength := hs.length_le
    have hlength' := ht.length_le
    simp only [List.length_append]
    omega
  · have hle := hs.degree_le
    have hle' := ht.degree_le
    rw [degree_eq] at hle hle'
    simp only [Factor.totalDegree_append]
    omega
  · rw [he, he']
    refine heffort.trans ?_
    have hmax : max e e' ≤ e + e' := by omega
    calc 1 + max e e' ≤ 1 + (e + e') := Nat.add_le_add_left hmax 1
      _ ≤ (1 + e) * (1 + e') := by ring_nf; omega

theorem times_slim (hwidth : Tree.normalWidth ≤ width) (hs : s.IsSlim width count degree)
    {p : Tree} (hp : p.Fits 1 Tree.normalWidth) (hpdegree : p.degree 1 ≤ degree')
    (ha : s.meaning? I = some a) (hb : p.meaning? I = some b) :
    ∃ u, s.times p = .ok u ∧ u.IsSlim width (count + Tree.normalWidth + 2) (degree + degree') ∧
      u.effort ≤ s.effort * (1 + p.effort) := by
  have hwidth' : 2 ≤ width := (by decide : 2 ≤ Tree.normalWidth).trans hwidth
  have hfactor : ∃ u, of s.multiplier s.divisor (s.top ++ [p.toFactor]) s.bottom = .ok u ∧
      u.IsSlim width (count + Tree.normalWidth + 2) (degree + degree') ∧
      u.effort ≤ s.effort * (1 + p.effort) := by
    obtain ⟨m, d, n, k, hm, hd, hn, hk, hd0, hk0, -⟩ := meaning?_eq_some.mp ha
    obtain ⟨e, hpos, he⟩ := s.effort_eq_one_add
    obtain ⟨htop, hbottom⟩ :=
      hs.allFit (he.le.trans (Nat.add_le_add_left (le_max_left e p.effort) 1))
    obtain ⟨hfit, hdegree⟩ := Tree.toFactor_fits (hp.mono le_rfl hwidth)
    have hpq : Factor.product? I [p.toFactor] = some b :=
      (Factor.product?_singleton _).trans ((Tree.toFactor_meaning p).trans hb)
    obtain ⟨u, hu, -, hslim, heffort⟩ := of_fits (m := m) hwidth'
      (htop.append (hfit.mono (le_max_right e p.effort))) hbottom (hpos.trans (le_max_left _ _))
      (Factor.product?_append_eq_some.mpr ⟨n, b, hn, hpq, rfl⟩) hk hd0 hk0
    refine ⟨u, by rw [hm, hd, hu], hslim.mono ?_ ?_, ?_⟩
    · have hlength := hs.length_le
      have hone : 1 ≤ Tree.normalWidth := by decide
      simp only [List.length_append, List.length_singleton]
      omega
    · have hle := hs.degree_le
      rw [degree_eq] at hle
      simp only [Factor.totalDegree_append, Factor.totalDegree, hdegree]
      omega
    · rw [he]
      refine heffort.trans ?_
      have hmax : max e p.effort ≤ e + p.effort := by omega
      calc 1 + max e p.effort ≤ 1 + (e + p.effort) := Nat.add_le_add_left hmax 1
        _ ≤ (1 + e) * (1 + p.effort) := by ring_nf; omega
  cases p with
  | number v =>
    obtain rfl := Tree.meaning?_number_eq_some.mp hb
    obtain ⟨u, hu, hslim, heffort⟩ := scale_slim b hs ha
    exact ⟨u, hu, hslim.mono (by omega) (Nat.le_add_right _ _),
      heffort.le.trans (Nat.le_mul_of_pos_right _ (by omega))⟩
  | term t =>
    obtain ⟨-, hlength, hfits⟩ := Tree.fits_term.mp hp
    have ht : t.IsSlim width Tree.normalWidth degree' :=
      ⟨fun f hf => (hfits f hf).mono le_rfl hwidth, hlength, hpdegree⟩
    obtain ⟨u, hu, hslim, heffort⟩ := mul_slim hwidth' hs ht ha hb
    exact ⟨u, hu, hslim, heffort.trans (Nat.mul_le_mul_left _ (Nat.le_add_left _ _))⟩
  | _ => exact hfactor

theorem mapM_scaled {f : Term → Except Fault Term} {c : Rat} {k : Nat} {ts : List Term}
    (h : ∀ t ∈ ts, ∀ b, t.meaning? I = some b → ∃ u, f t = .ok u ∧ u.meaning? I = some (b * c) ∧
      u.IsSlim width count degree ∧ u.effort ≤ t.effort * k)
    (ha : total? I ts = some a) :
    ∃ us, ts.mapM f = .ok us ∧ total? I us = some (a * c) ∧
      (∀ u ∈ us, u.IsSlim width count degree) ∧ totalEffort us ≤ totalEffort ts * k ∧
      us.length = ts.length := by
  induction ts generalizing a with
  | nil =>
    obtain rfl : (0 : Rat) = a := Option.some.inj ha
    exact ⟨[], rfl, by simp, by simp, Nat.zero_le _, rfl⟩
  | cons t ts ih =>
    obtain ⟨ht, hts⟩ := List.forall_mem_cons.mp h
    obtain ⟨x, y, hx, hy, rfl⟩ := total?_cons_eq_some.mp ha
    obtain ⟨u, hu, hux, hslim, heffort⟩ := ht x hx
    obtain ⟨us, hus, htotal, hslims, hefforts, hlength⟩ := ih hts hy
    refine ⟨u :: us, by simp [List.mapM_cons, hu, hus], ?_, ?_, ?_, ?_⟩
    · rw [total?_cons_of hux htotal, add_mul]
    · exact List.forall_mem_cons.mpr ⟨hslim, hslims⟩
    · simp only [totalEffort, Nat.add_mul]
      exact Nat.add_le_add heffort hefforts
    · simp [hlength]

theorem products_cons (s : Term) (ss ts : List Term) :
    products (s :: ss) ts = (do return (← ts.mapM s.mul) ++ (← products ss ts)) := by
  simp [products, List.mapM_append, List.mapM_map, Function.comp_def]

theorem products_slim (hwidth : 2 ≤ width) {ss ts : List Term}
    (hss : ∀ s ∈ ss, s.IsSlim width count degree) (hts : ∀ t ∈ ts, t.IsSlim width count' degree')
    (ha : total? I ss = some a) (hb : total? I ts = some b) :
    ∃ us, products ss ts = .ok us ∧ total? I us = some (a * b) ∧
      (∀ u ∈ us, u.IsSlim width (count + count' + 2) (degree + degree')) ∧
      totalEffort us ≤ totalEffort ss * totalEffort ts ∧ us.length = ss.length * ts.length := by
  induction ss generalizing a with
  | nil =>
    obtain rfl : (0 : Rat) = a := Option.some.inj ha
    exact ⟨[], rfl, by simp, by simp, Nat.zero_le _, by simp⟩
  | cons s ss ih =>
    obtain ⟨hs, hss⟩ := List.forall_mem_cons.mp hss
    obtain ⟨x, y, hx, hy, rfl⟩ := total?_cons_eq_some.mp ha
    obtain ⟨us, hus, htotal, hslims, hefforts, hlength⟩ := mapM_scaled (c := x) (k := s.effort)
      (fun t ht z hz => by
        obtain ⟨u, hu, hslim, heffort⟩ := mul_slim hwidth hs (hts t ht) hx hz
        rw [Nat.mul_comm] at heffort
        exact ⟨u, hu, (mul_meaning hu hx hz).trans (by rw [mul_comm]), hslim, heffort⟩) hb
    obtain ⟨vs, hvs, htotal', hslims', hefforts', hlength'⟩ := ih hss hy
    refine ⟨us ++ vs, by simp [products_cons, hus, hvs], ?_, ?_, ?_, ?_⟩
    · rw [total?_append_eq_some.mpr ⟨_, _, htotal, htotal', rfl⟩]
      congr 1
      ring
    · intro u hu
      exact (List.mem_append.mp hu).elim (hslims u) (hslims' u)
    · rw [totalEffort_append, totalEffort, Nat.add_mul, Nat.mul_comm s.effort]
      exact Nat.add_le_add hefforts hefforts'
    · rw [List.length_append, hlength, hlength', List.length_cons]
      ring

theorem summed_slim {ts : List Term} (hne : ts ≠ []) (h : ∀ t ∈ ts, t.IsSlim width count degree) :
    ∃ ss, summed ts = .ok ss ∧ ss.Perm ts := by
  refine summed_ok hne fun t ht f hf => ?_
  obtain ⟨base, exponent⟩ := f
  exact (Tree.fits_power.mp ((h t ht).fits _ hf)).2.1

theorem ofValue_slim (v : Value) (hcount : 2 ≤ count) : (ofValue v).IsSlim width count 0 := by
  refine ⟨fun f hf => ?_, hcount, (degree_ofValue _ 1).le⟩
  obtain rfl : f = .placeholder := by simpa [ofValue, side] using hf
  exact Factor.fits_placeholder 1

theorem summed_slim_or_zero (hcount : 2 ≤ count) {ts : List Term}
    (h : ∀ t ∈ ts, t.IsSlim width count degree) :
    ∃ ss, summed ts = .ok ss ∧ (∀ s ∈ ss, s.IsSlim width count degree) ∧
      totalEffort ss ≤ 2 + totalEffort ts := by
  by_cases hne : ts = []
  · subst hne
    have hzero : ∀ t ∈ [zero], t.IsSlim width count degree :=
      List.forall_mem_singleton.mpr ((ofValue_slim .zero hcount).mono le_rfl (Nat.zero_le _))
    obtain ⟨ss, hss, hperm⟩ := summed_slim (by simp) hzero
    obtain rfl := List.perm_singleton.mp hperm
    exact ⟨[zero], hss, hzero, le_rfl⟩
  · obtain ⟨ss, hss, hperm⟩ := summed_slim hne h
    refine ⟨ss, hss, fun s hs => h s (hperm.mem_iff.mp hs), ?_⟩
    rw [totalEffort_perm hperm]
    exact Nat.le_add_left _ _

/-- A sum with a value, of one slim term at least, with a bound on the effort of its terms; without
a degree it has a single term. -/
structure Adds (I : Interpretation) (width count degree effort : Nat) (q : Rat) (ts : List Term) :
    Prop where
  total : total? I ts = some q
  slim : ∀ t ∈ ts, t.IsSlim width count degree
  effort_le : totalEffort ts ≤ effort
  ne_nil : ts ≠ []
  single : degree = 0 → ts.length ≤ 1

namespace Adds

variable {effort effort' : Nat} {q : Rat} {ts : List Term}

theorem mono (h : Adds I width count degree effort q ts) (hcount : count ≤ count')
    (hdegree : degree ≤ degree') (heffort : effort ≤ effort') :
    Adds I width count' degree' effort' q ts :=
  ⟨h.total, fun t ht => (h.slim t ht).mono hcount hdegree, h.effort_le.trans heffort, h.ne_nil,
    fun h0 => h.single (by omega)⟩

theorem ofValue (q : Rat) (hcount : 2 ≤ count) :
    Adds I width count 0 2 q [ofValue (.exact q)] :=
  ⟨(Tree.meaning?_sum_singleton _).trans (meaning?_ofValue q),
    List.forall_mem_singleton.mpr (ofValue_slim _ hcount), le_rfl, by simp, fun _ => le_rfl⟩

theorem stands (h : Adds I width count degree effort q ts) (hcount : count ≤ width)
    (hmax : degree ≤ Value.maxExactExponent) :
    ∃ c, (Tree.sum ts).reduce = .ok c ∧ c.Stands I width degree (effort + 1) q ∧
      ((∀ t ∈ ts, t.Normal) → c.Normal) := by
  have hterm : ∀ t ∈ ts, (Tree.term t).Fits 1 width := by
    intro t ht
    have hslim := h.slim t ht
    exact Tree.fits_term.mpr
      ⟨hslim.degree_le.trans hmax, hslim.length_le.trans hcount, hslim.fits⟩
  match ts, h, hterm with
  | [t], h, hterm =>
    have hq : t.meaning? I = some q := (Tree.meaning?_sum_singleton t).symm.trans h.total
    obtain ⟨c, hc, hin⟩ := t.reduce_fits (hterm t List.mem_cons_self)
    refine ⟨c, hc, ⟨t.reduce_meaning hc hq, hin.fits, ?_, ?_⟩, fun hnormal => ?_⟩
    · exact hin.degree_le.trans (h.slim t List.mem_cons_self).degree_le
    · have heffort := (effort_le_totalEffort List.mem_cons_self).trans h.effort_le
      have hle : c.effort ≤ t.effort := hin.effort_le
      omega
    · obtain ⟨c', hc', -, hnormal', -⟩ := (hnormal t List.mem_cons_self).reduce_ok hq
      obtain rfl : c = c' := Except.ok.inj (hc.symm.trans hc')
      exact hnormal'
  | s :: t :: rest, h, hterm =>
    have hpos : 1 ≤ degree := by
      rcases Nat.eq_zero_or_pos degree with h0 | hpos
      · have hlength := h.single h0
        simp only [List.length_cons] at hlength
        omega
      · exact hpos
    have hhighest : highestDegree 1 (s :: t :: rest) ≤ degree :=
      highestDegree_le_iff.mpr fun r hr => (h.slim r hr).degree_le
    have hdegree : (Tree.sum (s :: t :: rest)).degree 1 ≤ degree := max_le hpos hhighest
    refine ⟨_, rfl, ⟨h.total, ?_, hdegree, ?_⟩, fun hnormal => ?_⟩
    · exact Tree.fits_sum.mpr ⟨hdegree.trans hmax, hterm⟩
    · have heffort := h.effort_le
      simp only [Tree.effort]
      omega
    · exact ⟨by simp, allNormal_iff.mpr hnormal⟩

end Adds

theorem multiplyAll_adds {effort effort' : Nat} (hwidth : Tree.normalWidth ≤ width) {ts : List Term}
    {p : Tree} (hts : Adds I width count degree effort a ts)
    (hp : p.Stands I Tree.normalWidth degree' effort' b) :
    ∃ us, multiplyAll ts p = .ok us ∧
      Adds I width (count + Tree.normalWidth + 2) (degree + degree') (effort * (1 + effort'))
        (a * b) us := by
  obtain ⟨us, hus, htotal, hslim, heffort, hlength⟩ := mapM_scaled (f := (·.times p)) (c := b)
    (k := 1 + p.effort) (fun t ht x hx => by
      obtain ⟨u, hu, hslim, heffort⟩ :=
        times_slim hwidth (hts.slim t ht) hp.fits hp.degree_le hx hp.meaning
      exact ⟨u, hu, times_meaning hu hx hp.meaning, hslim, heffort⟩) hts.total
  have hne : us ≠ [] := by
    rw [← List.length_pos_iff, hlength, List.length_pos_iff]
    exact hts.ne_nil
  obtain ⟨vs, hvs, hperm⟩ := summed_slim hne hslim
  refine ⟨vs, by simp [multiplyAll, hus, hvs], (summed_meaning hvs).trans htotal, ?_, ?_, ?_, ?_⟩
  · exact fun v hv => hslim v (hperm.mem_iff.mp hv)
  · rw [totalEffort_perm hperm]
    exact heffort.trans (Nat.mul_le_mul hts.effort_le (Nat.add_le_add_left hp.effort_le 1))
  · rintro rfl
    exact hne (List.nil_perm.mp hperm)
  · intro h0
    rw [hperm.length_eq, hlength]
    exact hts.single (by omega)

section
variable {n limit effort effort' : Nat} {q : Rat}
  (hcanonical : Canonizes I width limit (Tree.canonicalWith n))
  (hsteps : enoughSteps width limit ≤ n)

theorem Within.isSlim {t : Term} (h : t.Within degree limit) (hwidth : Tree.normalWidth ≤ width)
    (hmax : degree ≤ Value.maxExactExponent) : t.IsSlim width Tree.normalWidth degree := by
  refine ⟨fun f hf => (h.factors hwidth hmax f hf).1, ?_, h.degree_le⟩
  obtain ⟨-, -, htop, hbottom⟩ := normal_iff.mp h.normal
  have hlength := htop.length_le
  have hlength' := hbottom.length_le
  have hdegree := h.degree_le
  rw [degree_eq] at hdegree
  unfold Tree.normalWidth
  omega

include hcanonical hsteps

theorem simplifySumWith_adds {ts : List Term} (hts : ∀ t ∈ ts, t.IsSlim width count degree)
    (hne : ts ≠ []) (hq : total? I ts = some q) (hcount : count ≤ width)
    (hmax : degree ≤ Value.maxExactExponent) (hlimit : totalEffort ts ≤ limit) :
    ∃ ss us, summed ts = .ok ss ∧ simplifySumWith n ss = .ok us ∧
      Adds I width Tree.normalWidth degree (totalEffort ts) q us ∧ ∀ u ∈ us, u.Normal := by
  obtain ⟨ss, hss, hperm⟩ := summed_slim hne hts
  have heffort : totalEffort ss = totalEffort ts := totalEffort_perm hperm
  have hready : ∀ s ∈ ss, s.IsReady width degree limit := by
    intro s hs
    have hslim := hts s (hperm.mem_iff.mp hs)
    have hle : s.effort ≤ totalEffort ss := effort_le_totalEffort hs
    refine ⟨1, Tree.fits_term.mpr ?_, hslim.degree_le, by omega⟩
    exact ⟨hslim.degree_le.trans hmax, hslim.length_le.trans hcount, hslim.fits⟩
  obtain ⟨us, hus, htotal, hshape⟩ := simplifySumBy_ok hcanonical hmax hready
    ((summed_meaning hss).trans hq) hsteps (heffort.trans_le hlimit)
  refine ⟨ss, us, hss, hus, ?_⟩
  rcases hshape with rfl | ⟨hne', hwithin, hefforts, hsingle⟩
  · obtain ⟨t, ht⟩ := List.exists_mem_of_ne_nil ts hne
    refine ⟨⟨htotal, ?_, ?_, by simp, by simp⟩, List.forall_mem_singleton.mpr zero_normal⟩
    · exact List.forall_mem_singleton.mpr
        ((ofValue_slim .zero (by decide)).mono le_rfl (Nat.zero_le _))
    · exact t.two_le_effort.trans (effort_le_totalEffort ht)
  · refine ⟨⟨htotal, fun u hu => ?_, hefforts.trans heffort.le, hne', hsingle⟩, fun u hu => ?_⟩
    · exact (hwithin u hu).isSlim hcanonical.width_ge hmax
    · exact (hwithin u hu).normal

theorem multiplyOut_adds {ss ts : List Term} (hss : Adds I width count degree effort a ss)
    (hts : ∀ t ∈ ts, t.IsSlim width Tree.normalWidth degree') (hne : ts ≠ [])
    (hb : total? I ts = some b) (hcount : count + Tree.normalWidth + 2 ≤ width)
    (hmax : degree + degree' ≤ Value.maxExactExponent)
    (hlimit : effort * totalEffort ts ≤ limit) :
    ∃ us, multiplyOut n ss ts = .ok us ∧
      Adds I width Tree.normalWidth (degree + degree') (effort * totalEffort ts) (a * b) us ∧
      ∀ u ∈ us, u.Normal := by
  have hwidth : 2 ≤ width := (Nat.le_add_left _ _).trans hcount
  obtain ⟨ps, hps, htotal, hslim, heffort, hlength⟩ :=
    products_slim hwidth hss.slim hts hss.total hb
  have hle : totalEffort ps ≤ effort * totalEffort ts :=
    heffort.trans (Nat.mul_le_mul_right _ hss.effort_le)
  have hps0 : ps ≠ [] := by
    intro h0
    have hlength' : 0 = ss.length * ts.length := by simpa [h0] using hlength
    have hss0 : 0 < ss.length := List.length_pos_iff.mpr hss.ne_nil
    have hts0 : 0 < ts.length := List.length_pos_iff.mpr hne
    exact (Nat.mul_pos hss0 hts0).ne hlength'
  obtain ⟨qs, us, hqs, hus, hadds, hnormal⟩ := simplifySumWith_adds hcanonical hsteps hslim hps0
    htotal hcount hmax (hle.trans hlimit)
  exact ⟨us, by simp [multiplyOut, hps, hqs, hus], hadds.mono le_rfl le_rfl hle, hnormal⟩

theorem powerOut_adds {ts : List Term} (hts : ∀ t ∈ ts, t.IsSlim width Tree.normalWidth degree)
    (hne : ts ≠ []) (hb : total? I ts = some b)
    (hwidth : Tree.normalWidth + Tree.normalWidth + 2 ≤ width) (k : Nat)
    (hmax : k * degree ≤ Value.maxExactExponent) (hlimit : 2 * totalEffort ts ^ k ≤ limit) :
    ∃ us, powerOut n ts k = .ok us ∧
      Adds I width Tree.normalWidth (k * degree) (2 * totalEffort ts ^ k) (b ^ k) us ∧
      ∀ u ∈ us, u.Normal := by
  obtain ⟨t, ht⟩ := List.exists_mem_of_ne_nil ts hne
  have hpos : 0 < totalEffort ts := t.effort_pos.trans_le (effort_le_totalEffort ht)
  induction k with
  | zero =>
    have hone : Adds I width Tree.normalWidth 0 2 1 [ofValue .one] := .ofValue 1 (by decide)
    obtain ⟨us, hus, hperm⟩ := summed_slim hone.ne_nil hone.slim
    obtain rfl := List.perm_singleton.mp hperm
    refine ⟨[ofValue .one], hus, by simpa using hone, ?_⟩
    exact List.forall_mem_singleton.mpr (normal_iff.mpr ⟨⟨1, rfl⟩, ⟨1, rfl⟩, .inl rfl, .inl rfl⟩)
  | succ k ih =>
    rw [Nat.add_mul, Nat.one_mul] at hmax ⊢
    have hle : 2 * totalEffort ts ^ k ≤ 2 * totalEffort ts ^ (k + 1) :=
      Nat.mul_le_mul_left 2 (Nat.pow_le_pow_right hpos (Nat.le_succ k))
    obtain ⟨us, hus, hadds, -⟩ := ih (by omega) (hle.trans hlimit)
    have heffort : 2 * totalEffort ts ^ (k + 1) = 2 * totalEffort ts ^ k * totalEffort ts := by
      rw [pow_succ, Nat.mul_assoc]
    rw [heffort] at hlimit ⊢
    rw [pow_succ]
    obtain ⟨vs, hvs, hadds', hnormal⟩ :=
      multiplyOut_adds hcanonical hsteps hadds hts hne hb hwidth hmax hlimit
    exact ⟨vs, by simp [powerOut, hus, hvs], hadds', hnormal⟩

theorem multiplyIn_adds {ts : List Term} {p : Tree} (hts : Adds I width count degree effort a ts)
    (hp : p.Stands I Tree.normalWidth degree' effort' b) (hne : p ≠ .sum [])
    (hcount : count + Tree.normalWidth + 2 ≤ width)
    (hmax : degree + degree' ≤ Value.maxExactExponent) (hlimit : effort * (1 + effort') ≤ limit) :
    ∃ us, multiplyIn n ts p = .ok us ∧
      Adds I width (count + Tree.normalWidth + 2) (degree + degree') (effort * (1 + effort'))
        (a * b) us := by
  have hwidth : Tree.normalWidth ≤ width := by omega
  cases p with
  | sum ss =>
    have hss := hp.fits.slim hwidth hp.degree_le
    have heffort : totalEffort ss ≤ 1 + effort' :=
      (Nat.le_add_left _ 1).trans (hp.effort_le.trans (Nat.le_add_left _ 1))
    have hle : effort * totalEffort ss ≤ effort * (1 + effort') := Nat.mul_le_mul_left _ heffort
    have hss0 : ss ≠ [] := by
      rintro rfl
      exact hne rfl
    obtain ⟨us, hus, hadds, -⟩ := multiplyOut_adds hcanonical hsteps hts hss hss0 hp.meaning
      hcount hmax (hle.trans hlimit)
    exact ⟨us, hus, hadds.mono (by omega) le_rfl hle⟩
  | _ => exact multiplyAll_adds hwidth hts hp

theorem foldlM_multiplyIn_adds {ps : List Tree} {ts : List Term}
    (hts : Adds I width count degree effort a ts)
    (hps : ∀ p ∈ ps, p.Fits 1 Tree.normalWidth ∧ p.effort ≤ effort' ∧ p ≠ .sum [])
    (hb : Factor.product? I (ps.map Tree.toFactor) = some b)
    (hcount : count + ps.length * (Tree.normalWidth + 2) ≤ width)
    (hmax : degree + Factor.totalDegree 1 (ps.map Tree.toFactor) ≤ Value.maxExactExponent)
    (hlimit : effort * (1 + effort') ^ ps.length ≤ limit) :
    ∃ us, ps.foldlM (multiplyIn n) ts = .ok us ∧
      Adds I width (count + ps.length * (Tree.normalWidth + 2))
        (degree + Factor.totalDegree 1 (ps.map Tree.toFactor))
        (effort * (1 + effort') ^ ps.length) (a * b) us := by
  induction ps generalizing ts count degree effort a b with
  | nil =>
    obtain rfl : (1 : Rat) = b := Option.some.inj hb
    exact ⟨ts, rfl, by simpa [Factor.totalDegree] using hts⟩
  | cons p ps ih =>
    obtain ⟨⟨hfits, heffort, hne⟩, hps⟩ := List.forall_mem_cons.mp hps
    obtain ⟨x, y, hx, hy, rfl⟩ := Factor.product?_cons_eq_some.mp hb
    have hdegree : p.toFactor.degree 1 = p.degree 1 := (Tree.toFactor_fits hfits).2
    simp only [List.map_cons, Factor.totalDegree, hdegree, List.length_cons] at hmax hcount ⊢
    have hcount' : count + (ps.length + 1) * (Tree.normalWidth + 2) =
        count + Tree.normalWidth + 2 + ps.length * (Tree.normalWidth + 2) := by ring
    have heffort' : effort * (1 + effort') ^ (ps.length + 1) =
        effort * (1 + effort') * (1 + effort') ^ ps.length := by ring
    rw [List.length_cons, heffort'] at hlimit
    rw [hcount'] at hcount ⊢
    rw [heffort', ← Nat.add_assoc degree, ← mul_assoc a]
    rw [← Nat.add_assoc degree] at hmax
    have hle : effort * (1 + effort') ≤ effort * (1 + effort') * (1 + effort') ^ ps.length :=
      Nat.le_mul_of_pos_right _ (Nat.pow_pos (by omega))
    obtain ⟨us, hus, hadds⟩ := multiplyIn_adds hcanonical hsteps hts
      ⟨(Tree.toFactor_meaning p).symm.trans hx, hfits, le_rfl, heffort⟩ hne
      ((Nat.le_add_right _ _).trans hcount) ((Nat.le_add_right _ _).trans hmax)
      (hle.trans hlimit)
    obtain ⟨vs, hvs, hadds'⟩ := ih hadds hps hy hcount hmax hlimit
    exact ⟨vs, by simp [List.foldlM_cons, hus, hvs], hadds'⟩

end

end Term

namespace Canonizes

variable {limit count degree : Nat} {q : Rat} {canonical : Tree → Except Fault Tree}

theorem term_ok (h : Canonizes I width limit canonical) {t : Term}
    (hslim : t.IsSlim width count degree) (hq : t.meaning? I = some q) (hcount : count ≤ width)
    (hmax : degree ≤ Value.maxExactExponent) (hlimit : t.effort ≤ limit) :
    ∃ e, canonical (.term t) = .ok e ∧ e.Normal ∧
      e.Stands I Tree.normalWidth degree t.effort q := by
  have hfits : (Tree.term t).Fits 1 width :=
    Tree.fits_term.mpr ⟨hslim.degree_le.trans hmax, hslim.length_le.trans hcount, hslim.fits⟩
  obtain ⟨e, he, hform⟩ := h.tree hfits hlimit hq
  have hdegree := hform.degree_le.trans hslim.degree_le
  exact ⟨e, he, hform.normal, hform.meaning.trans hq,
    hform.normal.fits le_rfl e (hdegree.trans hmax), hdegree, hform.effort_le⟩

theorem sum_ok (h : Canonizes I width limit canonical) {ts : List Term}
    (hslim : ∀ t ∈ ts, t.IsSlim Tree.normalWidth Tree.normalWidth degree)
    (hq : Term.total? I ts = some q) (hmax : degree ≤ Value.maxExactExponent)
    (hlimit : 3 + Term.totalEffort ts ≤ limit) :
    ∃ e, (do canonical (.sum (← Term.summed ts)) : Except Fault Tree) = .ok e ∧ e.Normal ∧
      e.Stands I Tree.normalWidth degree (3 + Term.totalEffort ts) q := by
  obtain ⟨ss, hss, hslim, hle⟩ := Term.summed_slim_or_zero (by decide) hslim
  have hdegree : (Tree.sum ss).degree 0 ≤ degree := by
    refine max_le (Nat.zero_le _) (Term.highestDegree_le_iff.mpr fun s hs => ?_)
    exact (s.degree_mono (Nat.zero_le 1)).trans (hslim s hs).degree_le
  have hfits : (Tree.sum ss).Fits 0 width := by
    refine Tree.fits_sum.mpr ⟨hdegree.trans hmax, fun s hs => ?_⟩
    have hs := hslim s hs
    have hfits : (Tree.term s).Fits 1 Tree.normalWidth :=
      Tree.fits_term.mpr ⟨hs.degree_le.trans hmax, hs.length_le, hs.fits⟩
    exact hfits.mono (Nat.zero_le 1) h.width_ge
  have heffort : (Tree.sum ss).effort ≤ 3 + Term.totalEffort ts := by
    simp only [Tree.effort]
    omega
  have hmeaning := (Term.summed_meaning (I := I) hss).trans hq
  obtain ⟨e, he, hform⟩ := h.tree hfits (heffort.trans hlimit) hmeaning
  have hdegree' := hform.degree_le.trans hdegree
  exact ⟨e, by simp only [hss, ok_bind]; exact he, hform.normal, hform.meaning.trans hmeaning,
    hform.normal.fits le_rfl e (hdegree'.trans hmax), hdegree', hform.effort_le.trans heffort⟩

end Canonizes

end SymbolicAlgebra
