import SymbolicAlgebra.Proofs.MonomialSimplification
import SymbolicAlgebra.Proofs.Overflow

/-!
# Reduced polynomials

Simplifying a sum of monomials leaves monomials of different exponents, or a zero if nothing is left.
So the canonical form of a sum shows whether its polynomial is zero: different monomials are
independent. Putting the terms in order may overflow, which the statements here allow for.
-/

namespace SymbolicAlgebra

open Outcome
open MvPolynomial (X C monomial coeff)

namespace Term

/-- No exponents occur in the polynomials of both terms. -/
def Apart (s t : Term) : Prop := Disjoint s.polynomial.support t.polynomial.support

theorem Apart.symm {s t : Term} (h : s.Apart t) : t.Apart s := Disjoint.symm h

/-- Monomials other than zero with different exponents. -/
structure Distinct (ts : List Term) : Prop where
  isMonomial : ∀ t ∈ ts, ∃ z e, z ≠ 0 ∧ t.IsMonomial z e
  apart : ts.Pairwise Apart

variable {t : Term} {ts : List Term}

theorem distinct_cons :
    Distinct (t :: ts) ↔ (∃ z e, z ≠ 0 ∧ t.IsMonomial z e) ∧ (∀ s ∈ ts, t.Apart s) ∧ Distinct ts := by
  constructor
  · rintro ⟨hall, hapart⟩
    obtain ⟨ht, hts⟩ := List.forall_mem_cons.mp hall
    obtain ⟨hfirst, hrest⟩ := List.pairwise_cons.mp hapart
    exact ⟨ht, hfirst, hts, hrest⟩
  · rintro ⟨ht, hfirst, hts, hrest⟩
    exact ⟨List.forall_mem_cons.mpr ⟨ht, hts⟩, List.pairwise_cons.mpr ⟨hfirst, hrest⟩⟩

theorem Distinct.perm {ss : List Term} (h : Distinct ss) (hperm : ts.Perm ss) : Distinct ts :=
  ⟨fun t ht => h.isMonomial t (hperm.mem_iff.mp ht),
    (hperm.pairwise_iff fun h => h.symm).mpr h.apart⟩

theorem coeff_totalPolynomial {e : String →₀ Nat} (h : ∀ t ∈ ts, e ∉ t.polynomial.support) :
    coeff e (totalPolynomial ts) = 0 := by
  induction ts with
  | nil => rfl
  | cons t ts ih =>
    obtain ⟨ht, hts⟩ := List.forall_mem_cons.mp h
    rw [totalPolynomial, MvPolynomial.coeff_add, MvPolynomial.notMem_support_iff.mp ht, ih hts,
      add_zero]

theorem Distinct.total_ne_zero (h : Distinct ts) (hne : ts ≠ []) : totalPolynomial ts ≠ 0 := by
  cases ts with
  | nil => exact absurd rfl hne
  | cons t ts =>
    obtain ⟨⟨z, e, hz, ht⟩, hapart, -⟩ := distinct_cons.mp h
    have hcoeff : coeff e (totalPolynomial (t :: ts)) = z := by
      have hmem : e ∈ t.polynomial.support := by
        simp [ht.polynomial, MvPolynomial.mem_support_iff, hz]
      have hrest := coeff_totalPolynomial fun s hs => Finset.disjoint_left.mp (hapart s hs) hmem
      rw [totalPolynomial, MvPolynomial.coeff_add, hrest, ht.polynomial,
        MvPolynomial.coeff_monomial, if_pos rfl, add_zero]
    intro hzero
    rw [hzero, MvPolynomial.coeff_zero] at hcoeff
    exact hz hcoeff.symm

theorem IsMonomial.leaves {canonical : Tree → Except Fault Tree} {z : Int} {e : String →₀ Nat}
    (ht : t.IsMonomial z e) (hcanonical : FixesLeaves canonical) :
    ∀ f ∈ t.top, ∃ c, canonical f.base = .ok c ∧ c.IsMonomialFormOf f.base := by
  intro f hf
  rcases ht.mem_top hf with hf | rfl
  · obtain ⟨name, -, rfl⟩ := Factor.mem_powers.mp hf
    exact ⟨_, hcanonical.variable name, Tree.IsReducedMonomial.formOf_self trivial⟩
  · exact ⟨_, hcanonical.number _, Tree.IsReducedMonomial.formOf_self ⟨1, by simp [Value.one]⟩⟩

theorem IsMonomial.add_like {s t : Term} {y z : Int} {e : String →₀ Nat} (hs : s.IsMonomial y e)
    (ht : t.IsMonomial z e) : ∃ u, s.add t = .ok (.term u) ∧ u.IsMonomial (y + z) e ∧
      u.bulk = s.bulk := by
  have hlike := (hs.isLike_iff ht).mpr rfl
  refine ⟨{ s with multiplier := .exact (y + z : Int) }, ?_, ⟨rfl, hs.divisor, hs.top, hs.bottom⟩, ?_⟩
  · have hs' := hs.isPolynomial
    have ht' := ht.isPolynomial
    simp [add, hs'.withCommonDenominator ht', ht'.withCommonDenominator hs', hlike, hs.multiplier,
      ht.multiplier, Value.add_exact]
  · rw [bulk_eq, bulk_eq]

section
variable {canonical : Tree → Except Fault Tree} {steps : Nat} {combined : List Term} {z : Int}
  {e : String →₀ Nat}

/-- What combining a term with others results in: the sum of all, with no new exponents. -/
structure CombinesTo (combined : List Term) (t : Term) (combined' : List Term) : Prop where
  distinct : Distinct combined'
  polynomial : totalPolynomial combined' = totalPolynomial combined + t.polynomial
  support : ∀ r ∈ combined', ∃ s ∈ t :: combined, r.polynomial.support ⊆ s.polynomial.support
  bulk_le : totalBulk combined' ≤ totalBulk combined + t.bulk

/-- A monomial of another exponent stays apart from what a monomial is combined to. -/
theorem CombinesTo.cons {other : Term} {y : Int} {d : String →₀ Nat} {rest combined' : List Term}
    (h : CombinesTo rest t combined') (hother : other.IsMonomial y d) (hy : y ≠ 0)
    (ht : t.IsMonomial z e) (hne : d ≠ e) (hapart : ∀ s ∈ rest, other.Apart s) :
    CombinesTo (other :: rest) t (other :: combined') := by
  have hapart' : ∀ r ∈ combined', other.Apart r := by
    intro r hr
    obtain ⟨s, hs, hsupport⟩ := h.support r hr
    refine Disjoint.mono_right hsupport ?_
    rcases List.mem_cons.mp hs with rfl | hs
    · rw [hother.polynomial, ht.polynomial]
      refine Disjoint.mono MvPolynomial.support_monomial_subset
        MvPolynomial.support_monomial_subset ?_
      exact Finset.disjoint_singleton.mpr hne
    · exact hapart s hs
  refine ⟨distinct_cons.mpr ⟨⟨y, d, hy, hother⟩, hapart', h.distinct⟩, ?_,
    List.forall_mem_cons.mpr ⟨⟨other, by simp, subset_rfl⟩, fun r hr => ?_⟩, ?_⟩
  · rw [totalPolynomial, totalPolynomial, h.polynomial, add_assoc]
  · obtain ⟨s, hs, hsupport⟩ := h.support r hr
    rcases List.mem_cons.mp hs with rfl | hs
    · exact ⟨s, by simp, hsupport⟩
    · exact ⟨s, by simp [hs], hsupport⟩
  · have hle := h.bulk_le
    simp only [totalBulk]
    omega

theorem combine_distinct (hcanonical : FixesLeaves canonical) (hcombined : Distinct combined)
    (ht : t.IsMonomial z e) (hz : z ≠ 0) (hsteps : 2 * totalBulk combined ≤ steps) :
    ∃ combined', combine steps canonical combined t = .ok combined' ∧
      CombinesTo combined t combined' := by
  induction combined with
  | nil =>
    refine ⟨[t], rfl, distinct_cons.mpr ⟨⟨z, e, hz, ht⟩, by simp, hcombined⟩, add_comm _ _,
      fun r hr => ⟨r, hr, subset_rfl⟩, (Nat.add_comm _ _).le⟩
  | cons other rest ih =>
    obtain ⟨⟨y, d, hy, hother⟩, hapart, hrest⟩ := distinct_cons.mp hcombined
    simp only [totalBulk] at hsteps
    by_cases hlike : other.isLike t = true
    · -- the term is added to this one, which goes away if the sum is zero
      obtain rfl := (hother.isLike_iff ht).mp hlike
      obtain ⟨u, hu, hmonomial, hbulk⟩ := hother.add_like ht
      obtain ⟨total, x, c, htotal, hx, -, hpolynomial, hle⟩ := simplifyBy_isMonomial hcanonical
        hmonomial.isPolynomial (hmonomial.leaves hcanonical)
        (show 2 * u.bulk ≤ steps by omega)
      have hsum : total.polynomial = other.polynomial + t.polynomial := by
        rw [hpolynomial, hmonomial.polynomial, hother.polynomial, ht.polynomial, map_add]
      have hsupport : total.polynomial.support ⊆ other.polynomial.support := by
        rw [hpolynomial, hmonomial.polynomial, hother.polynomial]
        refine MvPolynomial.support_monomial_subset.trans ?_
        simp [MvPolynomial.mem_support_iff, hy]
      have hcombine : combine steps canonical (other :: rest) t =
          .ok (if x = 0 then rest else total :: rest) := by
        simp only [combine, hlike, hu, Tree.toTerm, ok_bind, pure_eq_ok, htotal, hx.isZero, if_true,
          decide_eq_true_eq]
        split <;> rfl
      refine ⟨_, hcombine, ?_⟩
      by_cases hx0 : x = 0
      · rw [if_pos hx0]
        refine ⟨hrest, ?_, fun r hr => ⟨r, by simp [hr], subset_rfl⟩, ?_⟩
        · have hzero : other.polynomial + t.polynomial = 0 := by
            rw [← hsum, hx.polynomial, hx0, map_zero]
          rw [totalPolynomial, add_right_comm, hzero, zero_add]
        · simp only [totalBulk]
          omega
      · rw [if_neg hx0]
        refine ⟨distinct_cons.mpr ⟨⟨x, c, hx0, hx⟩, fun s hs => (hapart s hs).mono_left hsupport,
          hrest⟩, ?_, List.forall_mem_cons.mpr ⟨⟨other, by simp, hsupport⟩,
          fun r hr => ⟨r, by simp [hr], subset_rfl⟩⟩, ?_⟩
        · rw [totalPolynomial, totalPolynomial, hsum, add_right_comm]
        · simp only [totalBulk]
          omega
    · obtain ⟨combined', hcombine, hcomes⟩ := ih hrest (by omega)
      have hne : d ≠ e := fun h => hlike ((hother.isLike_iff ht).mpr h)
      exact ⟨other :: combined', by simp [combine, hlike, hcombine], hcomes.cons hother hy ht hne hapart⟩

theorem combineAll_distinct {limit n : Nat} {pending : List Term}
    (hcanonical : CanonizesMonomials limit canonical) (hcombined : Distinct combined)
    (hpending : ∀ t ∈ pending, t.IsPolynomial false)
    (hlimit : totalBulk combined + totalBulk pending ≤ 1 + limit)
    (hsteps : 2 * (totalBulk combined + totalBulk pending) ≤ steps) (hn : pending.length ≤ n) :
    ∃ combined', combineAll steps canonical n combined pending = .ok combined' ∧
      Distinct combined' ∧
      totalPolynomial combined' = totalPolynomial combined + totalPolynomial pending ∧
      totalBulk combined' ≤ totalBulk combined + totalBulk pending := by
  induction pending generalizing n combined with
  | nil => exact ⟨combined, by cases n <;> rfl, hcombined, (add_zero _).symm, le_rfl⟩
  | cons t pending ih =>
    cases n with
    | zero => simp at hn
    | succ n =>
      obtain ⟨ht, hpending⟩ := List.forall_mem_cons.mp hpending
      simp only [totalBulk] at hlimit hsteps ⊢
      have hn' : pending.length ≤ n := by simpa using hn
      obtain ⟨s, z, e, hs, hmonomial, hzero, hsame, hbulk⟩ := simplifyBy_isMonomial
        hcanonical.toFixesLeaves ht (hcanonical.bases ht (by omega))
        (show 2 * t.bulk ≤ steps by omega)
      obtain ⟨c, hc, hform⟩ := hmonomial.reduce_ok hzero
      have hnext : combineAll steps canonical (n + 1) combined (t :: pending) = (do
          if z = 0 then combineAll steps canonical n combined pending
          else combineAll steps canonical n (← combine steps canonical combined s) pending) := by
        have hreduced := hform.isReduced
        simp only [combineAll, hs, hc, ok_bind, hmonomial.isZero, decide_eq_true_eq]
        cases c with
        | sum ts => exact hreduced.elim
        | _ => rfl
      by_cases hz : z = 0
      · obtain ⟨combined', hcombine, hdistinct, hpolynomial, hle⟩ :=
          ih hcombined hpending (by omega) (by omega) hn'
        refine ⟨combined', by rw [hnext, if_pos hz, hcombine], hdistinct, ?_, by omega⟩
        rw [hpolynomial, totalPolynomial, ← hsame, hmonomial.polynomial, hz, map_zero, zero_add]
      · obtain ⟨mid, hmid, hcomes⟩ :=
          combine_distinct hcanonical.toFixesLeaves hcombined hmonomial hz
            (show 2 * totalBulk combined ≤ steps by omega)
        have hmidle := hcomes.bulk_le
        obtain ⟨combined', hcombine, hdistinct, hpolynomial, hle⟩ :=
          ih hcomes.distinct hpending (by omega) (by omega) hn'
        refine ⟨combined', by rw [hnext, if_neg hz, hmid, ok_bind, hcombine], hdistinct, ?_,
          by omega⟩
        rw [hpolynomial, hcomes.polynomial, totalPolynomial, hsame, add_assoc]

end

/-- The terms of a simplified sum: a single zero or different monomials. -/
def IsReducedSum (ts : List Term) : Prop := ts = [zero] ∨ ts ≠ [] ∧ Distinct ts

theorem IsPolynomial.two_le_bulk {sums : Bool} (h : t.IsPolynomial sums) : 2 ≤ t.bulk := by
  obtain ⟨-, -, hne, -⟩ := isPolynomial_iff.mp h
  have hpos := Factor.totalBulk_pos hne
  rw [t.bulk_eq]
  omega

theorem length_le_totalBulk (ts : List Term) : ts.length ≤ totalBulk ts := by
  induction ts with
  | nil => exact le_rfl
  | cons t ts ih =>
    have hpos : 1 ≤ t.bulk := (Nat.le_add_right _ _).trans t.bulk_eq.ge
    simp only [List.length_cons, totalBulk]
    omega

/-- A sum of terms without sums is simplified to a reduced sum of the same polynomial. -/
theorem simplifySumBy_yields {canonical : Tree → Except Fault Tree} {limit steps : Nat}
    (hcanonical : CanonizesMonomials limit canonical) (hts : ∀ t ∈ ts, t.IsPolynomial false)
    (hne : ts ≠ []) (hlimit : totalBulk ts ≤ 1 + limit) (hsteps : 2 * totalBulk ts ≤ steps) :
    Yields (simplifySumBy steps canonical ts) fun ss =>
      IsReducedSum ss ∧ totalPolynomial ss = totalPolynomial ts ∧ totalBulk ss ≤ totalBulk ts := by
  have hlength := length_le_totalBulk ts
  obtain ⟨combined, hcombine, hdistinct, hpolynomial, hbulk⟩ := combineAll_distinct hcanonical
    ⟨List.forall_mem_nil _, List.Pairwise.nil⟩ hts (by simpa [totalBulk] using hlimit)
    (by simpa [totalBulk] using hsteps) (show ts.length ≤ steps by omega)
  have hkeep : combined.filterM (fun t => do return !(← t.isZero)) =
      (.ok combined : Except Fault _) := by
    have hall := filterM_eq_ok_filter (l := combined) (g := fun _ => true)
      (f := fun t : Term => (do return !(← t.isZero) : Except Fault Bool)) fun t ht => by
        obtain ⟨z, e, hz, hmonomial⟩ := hdistinct.isMonomial t ht
        simp [hmonomial.isZero, hz]
    simpa using hall
  have hsimplify : simplifySumBy steps canonical ts = summed combined := by
    simp only [simplifySumBy, hcombine, ok_bind, hkeep]
  simp only [totalPolynomial, totalBulk, zero_add] at hpolynomial hbulk
  rw [hsimplify]
  refine (summed_onlyOverflows combined).yields.mono fun ss hss => ?_
  have hperm := sorted_perm hss
  cases combined with
  | nil =>
    obtain rfl := List.perm_singleton.mp hperm
    refine ⟨.inl rfl, ?_, ?_⟩
    · rw [← hpolynomial, totalPolynomial, totalPolynomial, zero_isMonomial.polynomial, map_zero,
        zero_add]
      rfl
    · obtain ⟨t, ht⟩ := List.exists_mem_of_ne_nil ts hne
      exact (hts t ht).two_le_bulk.trans (bulk_le_totalBulk ht)
  | cons s combined =>
    refine ⟨.inr ⟨fun hnil => ?_, hdistinct.perm hperm⟩, ?_, ?_⟩
    · rw [hnil] at hperm
      exact List.cons_ne_nil _ _ (List.nil_perm.mp hperm)
    · rw [totalPolynomial_perm hperm, ← hpolynomial]
      rfl
    · rw [totalBulk_perm hperm]
      exact hbulk

theorem Distinct.normal (h : Distinct ts) : ∀ t ∈ ts, t.Normal := by
  intro t ht
  obtain ⟨z, e, -, hmonomial⟩ := h.isMonomial t ht
  exact hmonomial.normal

theorem Distinct.isPolynomial (h : Distinct ts) : ∀ t ∈ ts, t.IsPolynomial false := by
  intro t ht
  obtain ⟨z, e, -, hmonomial⟩ := h.isMonomial t ht
  exact hmonomial.isPolynomial

theorem IsReducedSum.isPolynomial (h : IsReducedSum ts) : ∀ t ∈ ts, t.IsPolynomial false := by
  rcases h with rfl | ⟨-, hdistinct⟩
  · exact List.forall_mem_singleton.mpr zero_isMonomial.isPolynomial
  · exact hdistinct.isPolynomial

theorem IsReducedSum.ne_nil (h : IsReducedSum ts) : ts ≠ [] := by
  rcases h with rfl | ⟨hne, -⟩
  · simp
  · exact hne

end Term

namespace Tree

/-- A reduced monomial or a sum of two different monomials or more. -/
def IsReducedPolynomial : Tree → Prop
  | .sum ts => 2 ≤ ts.length ∧ Term.Distinct ts
  | t => t.IsReducedMonomial

variable {c t : Tree}

theorem IsReducedMonomial.isReducedPolynomial (h : c.IsReducedMonomial) :
    c.IsReducedPolynomial := by
  cases c with
  | sum ts => exact h.elim
  | _ => exact h

theorem IsReducedPolynomial.cases (h : c.IsReducedPolynomial) :
    c.IsReducedMonomial ∨ ∃ ts, c = .sum ts ∧ 2 ≤ ts.length ∧ Term.Distinct ts := by
  cases c with
  | sum ts => exact .inr ⟨ts, rfl, h⟩
  | _ => exact .inl h

theorem IsReducedPolynomial.eq_zero_iff (h : c.IsReducedPolynomial) :
    c = .zero ↔ c.polynomial = 0 := by
  have hzero : Tree.zero = .number (.exact (0 : Int)) := by simp [Tree.zero, Value.zero]
  cases c with
  | number v =>
    obtain ⟨z, rfl⟩ := h
    rw [hzero, polynomial, wholePart_exact, MvPolynomial.C_eq_zero]
    simp
  | «variable» name =>
    rw [hzero, polynomial]
    exact iff_of_false (by simp) (MvPolynomial.X_ne_zero name)
  | term t =>
    obtain ⟨z, e, ht, hz, -⟩ := h
    rw [hzero, polynomial, ht.polynomial, MvPolynomial.monomial_eq_zero]
    exact iff_of_false (by simp) hz
  | sum ts =>
    obtain ⟨hlength, hdistinct⟩ := h
    rw [hzero, polynomial]
    refine iff_of_false (by simp) (hdistinct.total_ne_zero ?_)
    rintro rfl
    simp at hlength
  | constant _ | power _ | call _ _ => exact h.elim

/-- The first tree is a reduced polynomial, the one of the second tree, and no larger. -/
structure IsReducedFormOf (c t : Tree) : Prop where
  isReduced : c.IsReducedPolynomial
  polynomial : c.polynomial = t.polynomial
  bulk_le : c.bulk ≤ t.bulk

theorem IsMonomialFormOf.isReducedFormOf (h : c.IsMonomialFormOf t) : c.IsReducedFormOf t :=
  ⟨h.isReduced.isReducedPolynomial, h.polynomial, h.bulk_le⟩

theorem IsReducedFormOf.trans {s : Tree} (h : c.IsReducedFormOf t)
    (hpolynomial : t.polynomial = s.polynomial) (hbulk : t.bulk ≤ s.bulk) : c.IsReducedFormOf s :=
  ⟨h.isReduced, h.polynomial.trans hpolynomial, h.bulk_le.trans hbulk⟩

end Tree

theorem Term.IsReducedSum.reduce_ok {ts : List Term} (h : IsReducedSum ts) :
    ∃ c, (Tree.sum ts).reduce = .ok c ∧ c.IsReducedFormOf (.sum ts) := by
  have hsingle : ∀ {t : Term} {z : Int} {e : String →₀ Nat}, t.IsMonomial z e → (z = 0 → e = 0) →
      ∃ c, (Tree.sum [t]).reduce = .ok c ∧ c.IsReducedFormOf (.sum [t]) := by
    intro t z e ht hzero
    obtain ⟨c, hc, hform⟩ := ht.reduce_ok hzero
    refine ⟨c, hc, hform.isReducedFormOf.trans ?_ ?_⟩
    · rw [Tree.polynomial, Tree.polynomial, totalPolynomial, totalPolynomial, add_zero]
    · simp only [Tree.bulk, totalBulk]
      omega
  rcases h with rfl | ⟨hne, hdistinct⟩
  · exact hsingle zero_isMonomial fun _ => rfl
  · match ts, hne with
    | [t], _ =>
      obtain ⟨⟨z, e, hz, ht⟩, -⟩ := distinct_cons.mp hdistinct
      exact hsingle ht fun h => absurd h hz
    | s :: t :: ts, _ =>
      exact ⟨_, rfl, ⟨by simp, hdistinct⟩, rfl, le_rfl⟩

/-- A term of a single factor is simplified to one of the canonical form of its base, if that is an
atom. -/
theorem Term.simplifyBy_wrapped {canonical : Tree → Except Fault Tree}
    {steps : Nat} {b c : Tree} (hcanonical : FixesLeaves canonical) (hc : canonical b = .ok c)
    (hatom : c.IsAtom) (hnormal : c.Normal) (hsteps : 2 ≤ steps) :
    Term.simplifyBy steps canonical ⟨.one, .one, [⟨b, .one⟩], [.placeholder]⟩ =
      .ok ⟨.one, .one, [⟨c, .one⟩], [.placeholder]⟩ := by
  obtain ⟨steps, rfl⟩ : ∃ k, steps = k + 2 := ⟨steps - 2, by omega⟩
  have hnorm : Factor.normalize canonical ⟨b, .whole 1⟩ = .ok ⟨c, .whole 1⟩ :=
    Factor.normalize_ok hcanonical.number hc hnormal
  have hone : Factor.normalize canonical ⟨.one, .whole 1⟩ = .ok ⟨.one, .whole 1⟩ :=
    Factor.normalize_ok hcanonical.number (hcanonical.number _) rfl
  have hvalue : (⟨.one, .whole 1⟩ : Factor).value? = .ok (some (.exact (1 ^ 1 : Int))) :=
    Factor.value?_number 1 (by decide)
  have hgather : Product.step canonical ⟨.one, .one, [], []⟩ ⟨⟨b, .whole 1⟩, true⟩ =
      .ok (⟨.one, .one, [⟨c, .whole 1⟩], []⟩, []) := by
    rw [Product.step_atom hnorm _ _ one_ne_zero hatom
      (Factor.value?_of_not_plain (hatom.plainValue? hnormal))]
    rfl
  have hfold : Product.step canonical ⟨.one, .one, [⟨c, .whole 1⟩], []⟩ ⟨⟨.one, .whole 1⟩, false⟩ =
      .ok (⟨.one, .one, [⟨c, .whole 1⟩], []⟩, []) := by
    rw [Product.step_plain hone _ _ one_ne_zero hvalue]
    simp [Product.fold, Value.one, Value.mul_exact]
  have hrun : Product.run canonical (steps + 2) ⟨.one, .one, [], []⟩
      (Product.items [⟨b, .whole 1⟩] [.placeholder] true) =
      .ok ⟨.one, .one, [⟨c, .whole 1⟩], []⟩ := by
    have hplaceholder : Factor.placeholder = ⟨.one, .whole 1⟩ := by
      rw [Tree.whole_one]
      rfl
    simp [Product.items, Product.run, hplaceholder, hgather, hfold]
  have hfactor : (⟨c, .whole 1⟩ : Factor).Normal := ⟨hatom, hnormal, 1, one_ne_zero, rfl⟩
  have hof : of .one .one [⟨c, .whole 1⟩] [] =
      .ok ⟨.one, .one, [⟨c, .whole 1⟩], [.placeholder]⟩ := by
    have hkept : Factor.kept [⟨c, .whole 1⟩] = [⟨c, .whole 1⟩] := Factor.NormalSide.kept_eq
      (.inr ⟨by simp, List.forall_mem_singleton.mpr hfactor⟩)
    rw [Value.one, of_ok 1 1 (List.forall_mem_singleton.mpr hfactor.isFoldable)
      (List.forall_mem_nil _), hkept]
    rfl
  have hratio : Value.reduceRatio .one .one = .ok (.one, .one) := by
    have h := Product.reduceRatio_one 1
    rwa [Int.cast_one] at h
  have hzero : Value.one.isZero = false := by simp [Value.one]
  have hcancel : Product.cancel canonical ⟨.one, .one, [⟨c, .whole 1⟩], []⟩ =
      .ok ⟨.one, .one, [⟨c, .whole 1⟩], []⟩ := Product.cancel_of_bottom_nil rfl
  rw [← Tree.whole_one]
  simp [simplifyBy, hzero, hrun, hcancel, Product.toTerm, hratio, hof]

namespace Tree

variable {n : Nat} {ts : List Term}

theorem canonicalWith_sum (hts : ∀ t ∈ ts, t.IsPolynomial false) (hne : ts ≠ [])
    (hn : 2 * Term.totalBulk ts < n) :
    Yields (canonicalWith (n + 1) (.sum ts)) (·.IsReducedFormOf (.sum ts)) := by
  have hsum : canonicalWith (n + 1) (.sum ts) =
      (do (sum (← Term.simplifySumBy n (canonicalWith n) ts)).reduce) := by
    simp only [canonicalWith, simplifyWith_sum, Term.simplifySumWith]
    cases Term.simplifySumBy n (canonicalWith n) ts <;> rfl
  rw [hsum]
  refine (Term.simplifySumBy_yields (canonicalWith_canonizesMonomials hn) hts hne
    (Nat.le_add_left _ _) hn.le).bind ?_
  rintro ss ⟨hreduced, hpolynomial, hbulk⟩
  obtain ⟨c, hc, hform⟩ := hreduced.reduce_ok
  exact .of_ok hc (hform.trans hpolynomial (Nat.add_le_add_left hbulk 1))

/-- A sum as the only factor of a term. -/
def wrapped (ts : List Term) : Tree := .term ⟨.one, .one, [⟨.sum ts, .one⟩], [.placeholder]⟩

theorem bulk_wrapped (ts : List Term) : (wrapped ts).bulk = 2 + Term.totalBulk ts := by
  simp only [wrapped, bulk, Term.bulk, Factor.totalBulk]
  omega

theorem polynomial_wrapped (ts : List Term) :
    (wrapped ts).polynomial = Term.totalPolynomial ts := by
  have hone : Value.one = .exact (1 : Int) := by simp [Value.one]
  rw [wrapped, polynomial, Term.polynomial_eq hone, Factor.productPolynomial,
    Factor.productPolynomial, ← whole_one, ← Nat.cast_one, Factor.polynomial_whole]
  simp [polynomial]

theorem canonicalWith_wrapped (hts : ∀ t ∈ ts, t.IsPolynomial false) (hne : ts ≠ [])
    (hn : 2 * (wrapped ts).bulk < n) :
    Yields (canonicalWith (n + 1) (wrapped ts)) (·.IsReducedFormOf (wrapped ts)) := by
  have hbulk := bulk_wrapped ts
  obtain ⟨n, rfl⟩ : ∃ m, n = m + 1 := ⟨n - 1, by omega⟩
  have hleaves : FixesLeaves (canonicalWith (n + 1)) := ⟨fun _ => rfl, fun _ => rfl⟩
  have hsimplify : canonicalWith (n + 2) (wrapped ts) = (do
      (← Term.simplifyBy (n + 1) (canonicalWith (n + 1))
        ⟨.one, .one, [⟨.sum ts, .one⟩], [.placeholder]⟩).reduce) := by
    simp only [canonicalWith, simplifyWith_succ, simplifyBy, wrapped]
    cases Term.simplifyBy (n + 1) (canonicalWith (n + 1))
      ⟨.one, .one, [⟨.sum ts, .one⟩], [.placeholder]⟩ <;> rfl
  rw [hsimplify]
  rcases canonicalWith_sum hts hne (show 2 * Term.totalBulk ts < n by omega) with
    hoverflow | ⟨c, hc, hform⟩
  · refine .inl ?_
    have hone : Value.one.isZero = false := by simp [Value.one]
    simp only [Term.simplifyBy, hone, Product.items, List.map_cons, List.cons_append, Product.run,
      Product.step, Factor.normalize, hoverflow]
    rfl
  · have hmonomial : c.IsReducedMonomial → Yields (do
        (← Term.simplifyBy (n + 1) (canonicalWith (n + 1))
          ⟨.one, .one, [⟨.sum ts, .one⟩], [.placeholder]⟩).reduce)
        (·.IsReducedFormOf (wrapped ts)) := by
      intro hreduced
      have hsum : (Tree.sum ts).IsPolynomial true :=
        isPolynomial_sum.mpr fun t ht => Term.IsPolynomial.withSums t (hts t ht)
      have hterm : (wrapped ts).IsPolynomial true := by
        refine Term.isPolynomial_iff.mpr ⟨⟨1, by simp [Value.one]⟩, rfl, by simp, ?_, rfl⟩
        exact List.forall_mem_singleton.mpr ⟨hsum, 1, whole_one.symm, .inl (by decide)⟩
      obtain ⟨s, z, e, hs, hmonomial, hzero, hsame, hle⟩ := Term.simplifyBy_isMonomial hleaves hterm
        (List.forall_mem_singleton.mpr ⟨c, hc, hreduced, hform.polynomial, hform.bulk_le⟩)
        (show 2 * (wrapped ts).bulk ≤ n + 1 by omega)
      obtain ⟨r, hr, hrform⟩ := hmonomial.reduce_ok hzero
      rw [hs]
      exact .of_ok hr (hrform.isReducedFormOf.trans hsame hle)
    cases c with
    | sum ss =>
      obtain ⟨hlength, hdistinct⟩ := hform.isReduced
      have hnormal : (sum ss).Normal := ⟨hlength, Term.allNormal_iff.mpr hdistinct.normal⟩
      rw [Term.simplifyBy_wrapped hleaves hc trivial hnormal (by omega)]
      refine .of_ok (Term.reduce_wrapped trivial hnormal)
        (hform.trans (polynomial_wrapped ts).symm ?_)
      simp only [hbulk, bulk]
      omega
    | _ => exact hmonomial hform.isReduced

end Tree

end SymbolicAlgebra
