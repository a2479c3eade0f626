import SymbolicAlgebra.Proofs.ReducedPolynomial

/-!
# Multiplying polynomials out

A flat tree has no sums but at the top. Its pieces, its summands and what distribution makes of them
are flat again and stand for the product or the power of what they come from. A product has at most
the product of the bulks of two sums, and the pieces of a tree without sums only add to the bulk of
the terms.
-/

namespace SymbolicAlgebra

open Outcome
open MvPolynomial (X C monomial)

/-- A tree without sums, or a sum of two terms or more without sums. -/
def Tree.IsFlat : Tree → Prop
  | .sum ts => 2 ≤ ts.length ∧ ∀ t ∈ ts, t.IsPolynomial false
  | t => t.IsPolynomial false

namespace Tree

variable {t c : Tree}

theorem IsPolynomial.isFlat (h : t.IsPolynomial false) : t.IsFlat := by
  cases t with
  | sum ts => exact absurd h.1 (by simp)
  | _ => exact h

/-- A flat tree is a tree without sums or a sum that is not unwrapped. -/
theorem IsFlat.cases (h : t.IsFlat) :
    t.IsPolynomial false ∨ ∃ ts, t = .sum ts ∧ ts ≠ [] ∧ (∀ u ∈ ts, u.IsPolynomial false) ∧
      t.reduce = .ok t ∧ t.pieces = .ok [t] ∧ t.summands = .ok ts ∧ t.plainValue? = .ok none := by
  cases t with
  | sum ts =>
    match ts, h with
    | u :: v :: us, h => exact .inr ⟨_, rfl, by simp, h.2, rfl, rfl, rfl, rfl⟩
  | _ => exact .inl h

/-- Unwrapping a flat tree leaves a flat tree of the same polynomial. -/
theorem IsFlat.reduce (h : t.IsFlat) (hc : t.reduce = .ok c) :
    c.IsFlat ∧ c.polynomial = t.polynomial ∧ c.bulk ≤ t.bulk := by
  rcases h.cases with hpolynomial | ⟨ts, -, -, -, hreduce, -⟩
  · obtain ⟨hcpolynomial, hbulk⟩ := t.reduce_isPolynomial hpolynomial hc
    exact ⟨hcpolynomial.isFlat, hcpolynomial.polynomial_eq fun I =>
      t.reduce_meaning hc (IsPolynomial.meaning t hpolynomial), hbulk⟩
  · obtain rfl : t = c := Except.ok.inj (hreduce.symm.trans hc)
    exact ⟨h, rfl, le_rfl⟩

theorem IsReducedPolynomial.isFlat (h : c.IsReducedPolynomial) : c.IsFlat := by
  rcases h.cases with hmonomial | ⟨ts, rfl, hlength, hdistinct⟩
  · exact hmonomial.isPolynomial.isFlat
  · exact ⟨hlength, hdistinct.isPolynomial⟩

end Tree

/-- Trees without sums of which a polynomial is the product. -/
structure Tree.Factorizes (P : MvPolynomial String Int) (bulk : Nat) (ps : List Tree) : Prop where
  isPolynomial : ∀ p ∈ ps, p.IsPolynomial false
  polynomial : (ps.map Tree.polynomial).prod = P
  bulk_le : (ps.map Tree.bulk).sum ≤ bulk

namespace Tree

variable {P Q : MvPolynomial String Int} {bulk bulk' : Nat} {ps qs : List Tree}

theorem factorizes_singleton {p : Tree} (h : p.IsPolynomial false) :
    Factorizes p.polynomial p.bulk [p] :=
  ⟨List.forall_mem_singleton.mpr h, by simp, by simp⟩

theorem Factorizes.append (h : Factorizes P bulk ps) (h' : Factorizes Q bulk' qs) :
    Factorizes (P * Q) (bulk + bulk') (ps ++ qs) := by
  refine ⟨fun p hp => (List.mem_append.mp hp).elim (h.isPolynomial p) (h'.isPolynomial p), ?_, ?_⟩
  · rw [List.map_append, List.prod_append, h.polynomial, h'.polynomial]
  · rw [List.map_append, List.sum_append]
    exact Nat.add_le_add h.bulk_le h'.bulk_le

theorem Factorizes.mono (h : Factorizes P bulk ps) (hP : P = Q) (hbulk : bulk ≤ bulk') :
    Factorizes Q bulk' ps :=
  ⟨h.isPolynomial, h.polynomial.trans hP, h.bulk_le.trans hbulk⟩

theorem Factorizes.number_cons {z : Int} (h : Factorizes P bulk ps) :
    Factorizes (C z * P) (1 + bulk) (.number (.exact z) :: ps) := by
  have hnumber := factorizes_singleton (p := .number (.exact z)) ⟨z, rfl⟩
  rw [Tree.polynomial, wholePart_exact] at hnumber
  exact hnumber.append h

end Tree

theorem Factor.IsPolynomial.eq_one {sums : Bool} {f : Factor} (h : f.IsPolynomial sums)
    (hone : f.isOne = .ok true) : f.polynomial = 1 := by
  apply polynomial_ext
  intro x
  have hx := IsPolynomial.meaning (I := ⟨x, fun _ => 0, fun _ _ => none⟩) f h
  rw [map_one]
  exact f.isOne_sound hone hx

theorem Term.IsPolynomial.denominatorIsOne {sums : Bool} {t : Term} (h : t.IsPolynomial sums) :
    t.denominatorIsOne = .ok true := by
  obtain ⟨-, hd, -, -, hbottom⟩ := isPolynomial_iff.mp h
  simp [Term.denominatorIsOne, hd, hbottom, Value.one, Factor.allOne_placeholder]

mutual

/-- A tree without sums is the product of its pieces, which have no sums either. -/
theorem Tree.pieces_yields : (t : Tree) → t.IsPolynomial false →
    Yields t.pieces (Tree.Factorizes t.polynomial (2 * t.bulk - 1))
  | .number _, h | .variable _, h => .of_ok rfl (Tree.factorizes_singleton h)
  | .power f, h => f.pieces_yields h |>.mono fun ps hps => hps.mono rfl (by
      cases f
      simp only [Tree.bulk, Factor.bulk]
      omega)
  | .term t, h => t.unwrappedPieces_yields h
  | .sum _, h => absurd h.1 (by simp)
  | .constant _, h | .call .., h => h.elim

theorem Factor.pieces_yields : (f : Factor) → f.IsPolynomial false →
    Yields f.pieces (Tree.Factorizes f.polynomial (2 * f.base.bulk))
  | ⟨base, exponent⟩, h => by
    have hpower := Tree.factorizes_singleton (p := .power ⟨base, exponent⟩) h
    obtain ⟨hbase, k, rfl, -⟩ := h
    have hpos := base.bulk_pos
    simp only [Factor.pieces, Tree.isOne_whole, ok_bind]
    by_cases hk : (k : Int) = 1
    · obtain rfl : k = 1 := by exact_mod_cast hk
      refine (base.pieces_yields hbase).mono fun ps hps => hps.mono ?_
        (show 2 * base.bulk - 1 ≤ 2 * base.bulk by omega)
      rw [Factor.polynomial_whole, pow_one]
    · simp only [hk, decide_false, Bool.false_eq_true, if_false]
      refine .of_ok rfl (hpower.mono rfl ?_)
      simp only [Tree.bulk, Factor.bulk]
      omega

theorem Term.unwrappedPieces_yields : (t : Term) → t.IsPolynomial false →
    Yields t.unwrappedPieces (Tree.Factorizes t.polynomial (2 * t.bulk - 1))
  | ⟨multiplier, divisor, [⟨base, exponent⟩], bottom⟩, h => by
    have hwhole := h.denominatorIsOne
    obtain ⟨⟨z, rfl⟩, rfl, -, ⟨hf, -⟩, rfl⟩ := h
    have hpolynomial : Term.polynomial ⟨.exact z, .one, [⟨base, exponent⟩], [.placeholder]⟩ =
        C z * (⟨base, exponent⟩ : Factor).polynomial := by
      rw [Term.polynomial_eq rfl, Factor.productPolynomial, Factor.productPolynomial, mul_one]
    have hbulk : Term.bulk ⟨.exact z, .one, [⟨base, exponent⟩], [.placeholder]⟩ =
        1 + base.bulk := rfl
    have hpos := base.bulk_pos
    rw [Term.unwrappedPieces, hwhole, hpolynomial, hbulk]
    simp only [ok_bind, if_true]
    refine (Factor.isOne_onlyOverflows _).yields.bind fun one hone => ?_
    cases one with
    | true =>
      have hnumber := Tree.factorizes_singleton (p := .number (.exact z)) ⟨z, rfl⟩
      refine .of_ok rfl (hnumber.mono ?_ ?_)
      · rw [Factor.IsPolynomial.eq_one hf hone, mul_one, Tree.polynomial, Tree.wholePart_exact]
      · simp only [Tree.bulk]
        omega
    | false =>
      have hproduct : Yields (do return .number (.exact z) :: (← Factor.pieces ⟨base, exponent⟩))
          (Tree.Factorizes (C z * (⟨base, exponent⟩ : Factor).polynomial)
            (2 * (1 + base.bulk) - 1)) := by
        refine (Factor.pieces_yields _ hf).bind fun ps hps => ?_
        refine .of_ok rfl (hps.number_cons.mono rfl ?_)
        simp only
        omega
      obtain ⟨hbase, k, rfl, -⟩ := hf
      simp only [Bool.false_eq_true, if_false, Tree.isOne_whole]
      by_cases hz : (Value.exact z).isOne = true
      · simp only [hz, if_true, ok_bind]
        by_cases hk : (k : Int) = 1
        · -- nothing but a first power: the coefficient is left out
          obtain rfl : k = 1 := by exact_mod_cast hk
          obtain rfl : z = 1 := by simpa using hz
          refine (base.pieces_yields hbase).mono fun ps hps => hps.mono ?_ (by omega)
          rw [Factor.polynomial_whole, pow_one, map_one, one_mul]
        · simpa [hk] using hproduct
      · simpa [hz] using hproduct
  | ⟨multiplier, divisor, [], bottom⟩, h => absurd rfl h.2.2.1
  | ⟨multiplier, divisor, f :: g :: rest, bottom⟩, h => by
    have hwhole := h.denominatorIsOne
    obtain ⟨⟨z, rfl⟩, rfl, -, hall, rfl⟩ := h
    have hpolynomial : Term.polynomial ⟨.exact z, .one, f :: g :: rest, [.placeholder]⟩ =
        C z * Factor.productPolynomial (f :: g :: rest) := Term.polynomial_eq rfl
    rw [Term.unwrappedPieces]
    · simp only [hwhole, ok_bind, if_true]
      refine (Factor.piecesOfAll_yields _ hall).bind fun ps hps => ?_
      refine .of_ok rfl (hps.number_cons.mono hpolynomial.symm ?_)
      simp only [Term.bulk]
      omega
    · simp

theorem Factor.piecesOfAll_yields : (fs : List Factor) → Factor.AllPolynomial false fs →
    Yields (Factor.piecesOfAll fs)
      (Tree.Factorizes (Factor.productPolynomial fs) (2 * Factor.totalBulk fs))
  | [], _ => .of_ok rfl ⟨by simp, by simp [Factor.productPolynomial], by simp⟩
  | f :: rest, ⟨hf, hrest⟩ => by
    refine (f.pieces_yields hf).bind fun ps hps => ?_
    refine (Factor.piecesOfAll_yields rest hrest).bind fun qs hqs => ?_
    refine .of_ok rfl ((hps.append hqs).mono rfl ?_)
    rw [Factor.totalBulk_cons, Nat.mul_add]

end

namespace Term

/-- Terms without sums that add up to a polynomial. -/
structure AddsUpTo (P : MvPolynomial String Int) (bulk : Nat) (ts : List Term) : Prop where
  isPolynomial : ∀ t ∈ ts, t.IsPolynomial false
  ne_nil : ts ≠ []
  polynomial : totalPolynomial ts = P
  bulk_le : totalBulk ts ≤ bulk

variable {P Q : MvPolynomial String Int} {bulk bulk' n : Nat} {ss ts us : List Term}

theorem AddsUpTo.mono (h : AddsUpTo P bulk ts) (hbulk : bulk ≤ bulk') : AddsUpTo P bulk' ts :=
  ⟨h.isPolynomial, h.ne_nil, h.polynomial, h.bulk_le.trans hbulk⟩

theorem AddsUpTo.bulk_pos (h : AddsUpTo P bulk ts) : 1 ≤ bulk :=
  (List.length_pos_iff.mpr h.ne_nil).trans_le ((length_le_totalBulk ts).trans h.bulk_le)

theorem two_mul_length_le (h : ∀ t ∈ ts, t.IsPolynomial false) : 2 * ts.length ≤ totalBulk ts := by
  induction ts with
  | nil => exact le_rfl
  | cons t ts ih =>
    obtain ⟨ht, hts⟩ := List.forall_mem_cons.mp h
    have htwo := ht.two_le_bulk
    have hrest := ih hts
    simp only [List.length_cons, totalBulk]
    omega

/-- Putting terms in order does not change what they add up to. -/
theorem AddsUpTo.summed (h : AddsUpTo P bulk ts) :
    Yields (summed ts) fun us => AddsUpTo P bulk us ∧ us.length = ts.length := by
  refine (summed_onlyOverflows ts).yields.mono fun us hus => ?_
  obtain ⟨hpolynomial, htotal, hperm, hne⟩ := summed_isPolynomial h.isPolynomial hus
  have hsame := hperm h.ne_nil
  exact ⟨⟨hpolynomial, hne, htotal.trans h.polynomial, (totalBulk_perm hsame).trans_le h.bulk_le⟩,
    hsame.length_eq⟩

theorem mapM_times {p : Tree} (hts : ∀ t ∈ ts, t.IsPolynomial false) (hp : p.IsPolynomial false)
    (h : ts.mapM (·.times p) = .ok us) :
    (∀ u ∈ us, u.IsPolynomial false) ∧ totalPolynomial us = totalPolynomial ts * p.polynomial ∧
      us.length = ts.length ∧ totalBulk us ≤ totalBulk ts + ts.length * p.bulk := by
  induction ts generalizing us with
  | nil =>
    obtain rfl := Except.ok.inj h
    simp [totalPolynomial]
  | cons t ts ih =>
    obtain ⟨ht, hts⟩ := List.forall_mem_cons.mp hts
    rw [List.mapM_cons] at h
    obtain ⟨u, hu, h⟩ := bind_eq_ok.mp h
    obtain ⟨rest, hrest, h⟩ := bind_eq_ok.mp h
    obtain rfl := Except.ok.inj h
    obtain ⟨hpolynomial, hproduct, hbulk⟩ := times_isPolynomial ht hp hu
    obtain ⟨hall, htotal, hlength, hle⟩ := ih hts hrest
    refine ⟨List.forall_mem_cons.mpr ⟨hpolynomial, hall⟩, ?_, by simp [hlength], ?_⟩
    · rw [totalPolynomial, totalPolynomial, hproduct, htotal, add_mul]
    · simp only [totalBulk, List.length_cons, Nat.add_mul]
      omega

/-- Multiplying every term by a tree without sums adds its bulk to each of them. -/
theorem AddsUpTo.multiplyAll {p : Tree} (h : AddsUpTo P bulk ts) (hp : p.IsPolynomial false) :
    Yields (multiplyAll ts p) fun us =>
      AddsUpTo (P * p.polynomial) (bulk + ts.length * p.bulk) us ∧ us.length = ts.length := by
  refine (FailsOnly.mapM (fun t => t.times_onlyOverflows p) ts).yields.bind fun us hus => ?_
  obtain ⟨hall, htotal, hlength, hle⟩ := mapM_times h.isPolynomial hp hus
  have hne : us ≠ [] := fun hnil => h.ne_nil (List.length_eq_zero_iff.mp (by
    rw [← hlength, hnil, List.length_nil]))
  have hbulk := h.bulk_le
  have hadds : AddsUpTo (P * p.polynomial) (bulk + ts.length * p.bulk) us :=
    ⟨hall, hne, by rw [htotal, h.polynomial], by omega⟩
  exact hadds.summed.mono fun vs ⟨hvs, hsame⟩ => ⟨hvs, hsame.trans hlength⟩

theorem mapM_mul {pairs : List (Term × Term)}
    (hpairs : ∀ p ∈ pairs, p.1.IsPolynomial false ∧ p.2.IsPolynomial false)
    (h : pairs.mapM (fun (s, t) => s.mul t) = .ok us) :
    (∀ u ∈ us, u.IsPolynomial false) ∧
      totalPolynomial us = (pairs.map fun p => p.1.polynomial * p.2.polynomial).sum ∧
      us.length = pairs.length ∧ totalBulk us ≤ (pairs.map fun p => p.1.bulk + p.2.bulk).sum := by
  induction pairs generalizing us with
  | nil =>
    obtain rfl := Except.ok.inj h
    simp [totalPolynomial, totalBulk]
  | cons p pairs ih =>
    obtain ⟨⟨hs, ht⟩, hpairs⟩ := List.forall_mem_cons.mp hpairs
    rw [List.mapM_cons] at h
    obtain ⟨u, hu, h⟩ := bind_eq_ok.mp h
    obtain ⟨rest, hrest, h⟩ := bind_eq_ok.mp h
    obtain rfl := Except.ok.inj h
    obtain ⟨hpolynomial, hproduct, hbulk⟩ := mul_isPolynomial hs ht hu
    obtain ⟨hall, htotal, hlength, hle⟩ := ih hpairs hrest
    refine ⟨List.forall_mem_cons.mpr ⟨hpolynomial, hall⟩, ?_, by simp [hlength], ?_⟩
    · rw [totalPolynomial, List.map_cons, List.sum_cons, hproduct, htotal]
    · simp only [totalBulk, List.map_cons, List.sum_cons]
      omega

theorem sum_products (ss ts : List Term) :
    ((ss.flatMap fun s => ts.map fun t => (s, t)).map fun p => p.1.polynomial * p.2.polynomial).sum =
      totalPolynomial ss * totalPolynomial ts := by
  induction ss with
  | nil => simp [totalPolynomial]
  | cons s ss ih =>
    have hrow : ∀ ts : List Term, ((ts.map fun t => (s, t)).map fun p =>
        p.1.polynomial * p.2.polynomial).sum = s.polynomial * totalPolynomial ts := by
      intro ts
      induction ts with
      | nil => simp [totalPolynomial]
      | cons t ts ih' =>
        rw [List.map_cons, List.map_cons, List.sum_cons, ih', totalPolynomial, mul_add]
    rw [List.flatMap_cons, List.map_append, List.sum_append, hrow, ih, totalPolynomial, add_mul]

theorem bulk_products (ss ts : List Term) :
    ((ss.flatMap fun s => ts.map fun t => (s, t)).map fun p => p.1.bulk + p.2.bulk).sum =
      ts.length * totalBulk ss + ss.length * totalBulk ts := by
  induction ss with
  | nil => simp [totalBulk]
  | cons s ss ih =>
    have hrow : ∀ ts : List Term, ((ts.map fun t => (s, t)).map fun p => p.1.bulk + p.2.bulk).sum =
        ts.length * s.bulk + totalBulk ts := by
      intro ts
      induction ts with
      | nil => simp [totalBulk]
      | cons t ts ih' =>
        rw [List.map_cons, List.map_cons, List.sum_cons, ih']
        simp only [List.length_cons, totalBulk]
        ring
    rw [List.flatMap_cons, List.map_append, List.sum_append, hrow, ih]
    simp only [List.length_cons, totalBulk]
    ring

theorem AddsUpTo.multiplyOut (h : AddsUpTo P bulk ss) (h' : AddsUpTo Q bulk' ts)
    (hn : 2 * (bulk * bulk') < n) :
    Yields (multiplyOut n ss ts) (AddsUpTo (P * Q) (bulk * bulk')) := by
  have hmul : OnlyOverflows (products ss ts) := FailsOnly.mapM (fun (s, t) =>
    (Value.mul_onlyOverflows _ _).bind fun _ => (Value.mul_onlyOverflows _ _).bind fun _ =>
      of_onlyOverflows _ _ _ _) _
  refine hmul.yields.bind fun us hus => ?_
  have hpairs : ∀ p ∈ ss.flatMap fun s => ts.map fun t => (s, t),
      p.1.IsPolynomial false ∧ p.2.IsPolynomial false := by
    intro p hp
    obtain ⟨s, hs, hp⟩ := List.mem_flatMap.mp hp
    obtain ⟨t, ht, rfl⟩ := List.mem_map.mp hp
    exact ⟨h.isPolynomial s hs, h'.isPolynomial t ht⟩
  obtain ⟨hall, htotal, hlength, hle⟩ := mapM_mul hpairs hus
  rw [sum_products, h.polynomial, h'.polynomial] at htotal
  rw [bulk_products] at hle
  have hbound : totalBulk us ≤ bulk * bulk' := by
    have hss := two_mul_length_le h.isPolynomial
    have hts := two_mul_length_le h'.isPolynomial
    have hmul := Nat.mul_le_mul h.bulk_le h'.bulk_le
    have hleft := Nat.mul_le_mul_right (totalBulk ss) hts
    have hright := Nat.mul_le_mul_right (totalBulk ts) hss
    rw [Nat.mul_comm (totalBulk ts)] at hleft
    rw [Nat.mul_assoc] at hleft hright
    omega
  have hne : us ≠ [] := by
    rintro rfl
    have hpos : 0 < (ss.flatMap fun s => ts.map fun t => (s, t)).length := by
      obtain ⟨s, hs⟩ := List.exists_mem_of_ne_nil ss h.ne_nil
      obtain ⟨t, ht⟩ := List.exists_mem_of_ne_nil ts h'.ne_nil
      exact List.length_pos_of_mem (List.mem_flatMap.mpr ⟨s, hs, List.mem_map.mpr ⟨t, ht, rfl⟩⟩)
    rw [← hlength] at hpos
    exact absurd hpos (by simp)
  have hadds : AddsUpTo (P * Q) (bulk * bulk') us := ⟨hall, hne, htotal, hbound⟩
  refine hadds.summed.bind fun vs ⟨hvs, _⟩ => ?_
  have hvsbulk := hvs.bulk_le
  refine (simplifySumBy_yields (canonicalWith_canonizesMonomials
    (show 2 * totalBulk vs < n by omega)) hvs.isPolynomial hvs.ne_nil (Nat.le_add_left _ _)
    (by omega)).mono ?_
  rintro ws ⟨hreduced, hpolynomial, hwsbulk⟩
  exact ⟨hreduced.isPolynomial, hreduced.ne_nil, hpolynomial.trans hvs.polynomial,
    hwsbulk.trans hvs.bulk_le⟩

theorem addsUpTo_ofValue (z : Int) : AddsUpTo (C z) 2 [ofValue (.exact z)] := by
  refine ⟨List.forall_mem_singleton.mpr (isPolynomial_ofValue z), by simp, ?_, le_rfl⟩
  rw [totalPolynomial, totalPolynomial, polynomial_ofValue, add_zero]

theorem AddsUpTo.powerOut (h : AddsUpTo P bulk ts) {k : Nat} (hn : 4 * bulk ^ k < n) :
    Yields (powerOut n ts k) (AddsUpTo (P ^ k) (2 * bulk ^ k)) := by
  induction k with
  | zero =>
    have hone := addsUpTo_ofValue 1
    rw [Int.cast_one, map_one] at hone
    exact hone.summed.mono fun us ⟨hus, _⟩ => by simpa using hus
  | succ k ih =>
    have hle : bulk ^ k ≤ bulk ^ (k + 1) := Nat.pow_le_pow_right h.bulk_pos (Nat.le_succ k)
    have hsucc : 2 * bulk ^ k * bulk = 2 * bulk ^ (k + 1) := by rw [Nat.pow_succ, Nat.mul_assoc]
    refine (ih (by omega)).bind fun us hus => ?_
    have hproduct := hus.multiplyOut h (n := n) (by rw [hsucc]; omega)
    rwa [hsucc, ← pow_succ] at hproduct

theorem AddsUpTo.foldlM_multiplyIn {ps : List Tree} (h : AddsUpTo P bulk ts)
    (hps : ∀ p ∈ ps, p.IsPolynomial false) :
    Yields (ps.foldlM (multiplyIn n) ts)
      (AddsUpTo (P * (ps.map Tree.polynomial).prod)
        (bulk + ts.length * (ps.map Tree.bulk).sum)) := by
  induction ps generalizing P bulk ts with
  | nil => exact .of_ok rfl (by simpa using h)
  | cons p ps ih =>
    obtain ⟨hp, hps⟩ := List.forall_mem_cons.mp hps
    have hin : multiplyIn n ts p = Term.multiplyAll ts p := by
      cases p with
      | sum _ => exact absurd hp.1 (by simp)
      | _ => rfl
    rw [List.foldlM_cons, hin]
    refine (h.multiplyAll hp).bind fun us ⟨hus, hlength⟩ => (ih hus hps).mono fun vs hvs => ?_
    rw [List.map_cons, List.prod_cons, List.map_cons, List.sum_cons, ← mul_assoc, Nat.mul_add,
      ← Nat.add_assoc]
    rwa [hlength] at hvs

theorem AddsUpTo.multiplyIn_pieces {e : Tree} (h : AddsUpTo P bulk ts) (he : e.IsFlat)
    (hn : 2 * (bulk * (1 + 2 * e.bulk)) < n) :
    Yields (do (← e.pieces).foldlM (multiplyIn n) ts)
      (AddsUpTo (P * e.polynomial) (bulk * (1 + 2 * e.bulk))) := by
  rcases he.cases with hpolynomial | ⟨us, rfl, hne, hus, -, hpieces, -⟩
  · refine (e.pieces_yields hpolynomial).bind fun ps hps => ?_
    refine (h.foldlM_multiplyIn hps.isPolynomial).mono fun us hus => ?_
    rw [hps.polynomial] at hus
    refine hus.mono ?_
    have hlength : ts.length * (ps.map Tree.bulk).sum ≤ bulk * (2 * e.bulk) :=
      Nat.mul_le_mul ((length_le_totalBulk ts).trans h.bulk_le)
        (hps.bulk_le.trans (Nat.sub_le _ _))
    rw [Nat.mul_add, Nat.mul_one]
    omega
  · have hadds : AddsUpTo (totalPolynomial us) (totalBulk us) us := ⟨hus, hne, rfl, le_rfl⟩
    have hbulk : bulk * totalBulk us ≤ bulk * (1 + 2 * (Tree.sum us).bulk) := by
      apply Nat.mul_le_mul_left
      simp only [Tree.bulk]
      omega
    rw [hpieces, ok_bind, List.foldlM_cons]
    refine (h.multiplyOut hadds (by omega)).bind fun vs hvs => .of_ok rfl (hvs.mono hbulk)

/-- A sum is unwrapped to a flat tree. -/
theorem AddsUpTo.reduce (h : AddsUpTo P bulk ts) :
    Yields (Tree.sum ts).reduce fun c => c.IsFlat ∧ c.polynomial = P ∧ c.bulk ≤ 1 + bulk := by
  have hbulk := h.bulk_le
  match ts, h.ne_nil with
  | [t], _ =>
    have ht := h.isPolynomial t (List.mem_singleton_self t)
    refine (t.reduce_onlyOverflows).yields.mono fun c hc => ?_
    obtain ⟨hpolynomial, hle⟩ := t.reduce_isPolynomial ht hc
    refine ⟨hpolynomial.isFlat, ?_, ?_⟩
    · rw [hpolynomial.polynomial_eq fun I => t.reduce_meaning hc (IsPolynomial.meaning t ht),
        ← h.polynomial, totalPolynomial, totalPolynomial, add_zero]
    · simp only [totalBulk] at hbulk
      omega
  | s :: t :: ts, _ =>
    exact .of_ok rfl ⟨⟨by simp, h.isPolynomial⟩, h.polynomial, Nat.add_le_add_left hbulk 1⟩

end Term

/-- A flat tree is the sum of its summands. -/
theorem Tree.IsFlat.summands {e : Tree} (h : e.IsFlat) :
    Yields e.summands (Term.AddsUpTo e.polynomial (1 + e.bulk)) := by
  rcases h.cases with hpolynomial | ⟨us, rfl, hne, hus, -, -, hsummands, -⟩
  · have hsingle : e.summands = (do return [← e.toTerm]) := by
      cases e with
      | sum us => exact absurd hpolynomial.1 (by simp)
      | _ => rfl
    rw [hsingle]
    refine e.toTerm_onlyOverflows.yields.bind fun u hu => ?_
    obtain ⟨hu, hsame, hle⟩ := Tree.toTerm_isPolynomial hpolynomial hu
    refine .of_ok rfl ⟨List.forall_mem_singleton.mpr hu, by simp, ?_, ?_⟩
    · rw [Term.totalPolynomial, Term.totalPolynomial, add_zero, hsame]
    · simpa [Term.totalBulk] using hle
  · refine .of_ok hsummands ⟨hus, hne, rfl, ?_⟩
    simp only [Tree.bulk]
    omega

theorem Tree.IsFlat.fraction {c : Tree} {n : Nat} (h : c.IsFlat) (hn : 2 * c.bulk + 4 < n) :
    Yields (do Tree.canonicalWith n (.term (← Term.fraction c .one))) fun e =>
      e.IsReducedPolynomial ∧ e.polynomial = c.polynomial ∧ e.bulk ≤ 1 + c.bulk := by
  rcases h.cases with hpolynomial | ⟨us, rfl, hne, hus, -, -, -, hplain⟩
  · refine (Term.of_onlyOverflows _ _ _ _).yields.bind fun u hu => ?_
    obtain ⟨hu, hsame, hle⟩ := Term.fraction_isPolynomial hpolynomial hu
    obtain ⟨e, he, hform⟩ :=
      (canonicalWith_canonizesMonomials (show 2 * u.bulk < n by omega)).tree (.term u) hu le_rfl
    exact .of_ok he ⟨hform.isReduced.isReducedPolynomial, hform.polynomial.trans hsame,
      hform.bulk_le.trans hle⟩
  · have hfraction : Term.fraction (.sum us) .one =
        .ok ⟨.one, .one, [⟨.sum us, .one⟩], [.placeholder]⟩ := by
      have habsorb := absorb_keeps one_ne_zero hplain (fun _ => rfl) .one
      rw [whole_one] at habsorb
      have htop : Term.collect .one [⟨.sum us, .one⟩] = .ok (.one, [⟨.sum us, .one⟩]) := by
        simp [Term.collect, habsorb]
      have hbottom : Term.collect .one [Factor.placeholder] = .ok (.one, []) :=
        Term.collect_placeholders _ (List.forall_mem_singleton.mpr rfl)
      have hof : Term.fraction (.sum us) .one =
          Term.of .one .one [⟨.sum us, .one⟩] [Factor.placeholder] := rfl
      simp [hof, Term.of, htop, hbottom, Term.side]
    have hbulk := bulk_wrapped us
    have hsumbulk : (Tree.sum us).bulk = 1 + Term.totalBulk us := rfl
    obtain ⟨m, rfl⟩ : ∃ m, n = m + 1 := ⟨n - 1, by omega⟩
    rw [hfraction, ok_bind]
    refine (canonicalWith_wrapped hus hne (by omega)).mono fun e he => ?_
    exact ⟨he.isReduced, he.polynomial.trans (polynomial_wrapped us), he.bulk_le.trans (by omega)⟩

end SymbolicAlgebra
