import SymbolicAlgebra.Proofs.LikeTerms

/-!
# Simplifying a sum

The terms of a sum are simplified one by one and combined, where a term that turns out to be a sum
gives its own terms back to the queue. A term takes more effort than the terms of the sum that it
turns out to be, so the queue is worked through within as many rounds as its effort. The terms are
then put in order, which cannot fail for exponents of this size.
-/

namespace SymbolicAlgebra

open Outcome

variable {I : Interpretation}

theorem Binary64.nearestBits?_isSome :
    ∀ n < Value.maxExactExponent + 1, (nearestBits? n 1).isSome = true := by
  decide +kernel

theorem Value.toFloat_whole {n : Int} (hn : n.natAbs ≤ maxExactExponent) :
    ∃ x, (exact n).toFloat = .ok x := by
  obtain ⟨bits, hbits⟩ := Option.isSome_iff_exists.mp
    (Binary64.nearestBits?_isSome n.natAbs (Nat.lt_succ_of_le hn))
  simp [toFloat, Binary64.nearest?, hbits]

/-- A whole number of a magnitude with which powers are exact. -/
def Value.IsModerate (v : Value) : Prop := ∃ n : Int, n.natAbs ≤ maxExactExponent ∧ v = exact n

namespace Factor

theorem highestPower?_ok {fs : List Factor} (h : ∀ f ∈ fs, (Tree.power f).HasWholeExponent) :
    ∃ r, highestPower? fs = .ok r ∧ ∀ v, r = some v → v.IsModerate := by
  apply foldlM_ok (by simp)
  intro highest f hf hhighest
  obtain ⟨base, exponent⟩ := f
  obtain ⟨n, hn, rfl⟩ := h _ hf
  have hpower : ∀ power : Value, power.IsModerate → ∀ v,
      (if highest.all (·.lt power) then some power else highest) = some v → v.IsModerate := by
    intro power hp v hv
    split at hv
    · exact Option.some.inj hv ▸ hp
    · exact hhighest v hv
  have hexponent : (if base.isConstant then .zero else .exact n : Value).IsModerate := by
    split
    · exact ⟨0, Nat.zero_le _, by simp [Value.zero]⟩
    · exact ⟨n, hn, rfl⟩
  exact ⟨_, rfl, hpower _ hexponent⟩

end Factor

namespace Term

theorem rank_ok {t : Term} (h : ∀ f ∈ t.top ++ t.bottom, (Tree.power f).HasWholeExponent) :
    ∃ x, t.rank = .ok x := by
  obtain ⟨top, htop, htop'⟩ :=
    Factor.highestPower?_ok fun f hf => h f (List.mem_append_left t.bottom hf)
  obtain ⟨bottom, hbottom, hbottom'⟩ :=
    Factor.highestPower?_ok fun f hf => h f (List.mem_append_right t.top hf)
  have hpower : ∃ r, t.highestPower? = .ok r ∧ ∀ v, r = some v → v.IsModerate := by
    cases top with
    | some v => exact ⟨some v, by simp [highestPower?, htop], htop'⟩
    | none => exact ⟨bottom, by simp [highestPower?, htop, hbottom], hbottom'⟩
  obtain ⟨r, hr, hmoderate⟩ := hpower
  cases r with
  | none => exact ⟨_, by simp [rank, hr]; rfl⟩
  | some v =>
    obtain ⟨n, hn, rfl⟩ := hmoderate v rfl
    obtain ⟨x, hx⟩ := Value.toFloat_whole hn
    exact ⟨x, by simp [rank, hr, hx, Value.isUndefined]⟩

theorem sorted_ok {ts : List Term} (h : ∀ t ∈ ts, ∃ x, t.rank = .ok x) :
    ∃ ss, sorted ts = .ok ss ∧ ss.Perm ts := by
  obtain ⟨ranked, hranked, hterms⟩ := mapM_ok
    (f := fun t => do return (← t.rank, t)) (R := fun t (r : Float × Term) => r.2 = t)
    (l := ts) fun t ht => by
      obtain ⟨x, hx⟩ := h t ht
      exact ⟨(x, t), by simp [hx], rfl⟩
  have hmap : ranked.map (·.2) = ts := by
    clear hranked
    induction hterms with
    | nil => rfl
    | cons ht _ ih => rw [List.map_cons, ht, ih fun s hs => h s (List.mem_cons_of_mem _ hs)]
  refine ⟨(ranked.foldr insertRanked []).map (·.2), by rw [sorted, hranked]; rfl, ?_⟩
  exact ((perm_foldr_insertRanked ranked).map _).trans (List.Perm.of_eq hmap)

theorem summed_ok {ts : List Term} (hne : ts ≠ [])
    (h : ∀ t ∈ ts, ∀ f ∈ t.top ++ t.bottom, (Tree.power f).HasWholeExponent) :
    ∃ ss, summed ts = .ok ss ∧ ss.Perm ts := by
  rw [summed, if_neg (by simpa using hne)]
  exact sorted_ok fun t ht => rank_ok (h t ht)

/-- Steps that suffice for every term and for every sum of like terms. -/
def enoughSteps (width limit : Nat) : Nat :=
  width + 3 * Value.maxExactExponent + 2 + 3 * limit * (3 * Value.maxExactExponent)

/-- A term that can be simplified within bounds. -/
def IsReady (width degree limit : Nat) (t : Term) : Prop :=
  ∃ least, (Tree.term t).Fits least width ∧ t.degree least ≤ degree ∧ t.effort ≤ 1 + limit

variable {canonical : Tree → Except Fault Tree} {width limit steps degree : Nat}

theorem IsReady.affords {t : Term} (ht : t.IsReady width degree limit)
    (hsteps : enoughSteps width limit ≤ steps) :
    Product.Affords width steps (Product.items t.top t.bottom true) := by
  obtain ⟨least, hfits, -, heffort⟩ := ht
  refine affords_of_fits heffort hfits (le_trans ?_ hsteps)
  have hmul : 3 * limit * Value.maxExactExponent ≤ 3 * limit * (3 * Value.maxExactExponent) :=
    Nat.mul_le_mul_left _ (Nat.le_mul_of_pos_left _ (by decide))
  unfold enoughSteps
  omega

/-- A ready term does not grow. -/
theorem simplifyBy_ready {t : Term} {q : Rat} (hcanonical : Canonizes I width limit canonical)
    (ht : t.IsReady width degree limit) (hq : t.meaning? I = some q)
    (hsteps : enoughSteps width limit ≤ steps) :
    ∃ s, t.simplifyBy steps canonical = .ok s ∧ s.meaning? I = some q ∧
      s.Within degree limit ∧ s.effort ≤ t.effort := by
  have haffords := ht.affords hsteps
  obtain ⟨least, hfits, hdegree, heffort⟩ := ht
  have hpos := t.effort_pos
  have hlimit : t.effort - 1 ≤ limit := by omega
  obtain ⟨s, hs, hsq, hwithin⟩ := simplifyBy_ok hcanonical hlimit hq (by omega) haffords
    fun w hw => hw.weight_le hfits heffort hq
  refine ⟨s, hs, hsq, hwithin.mono hdegree hlimit, ?_⟩
  have hle := hwithin.effort_le
  omega

theorem isReady_of_sum {ts : List Term} (hwidth : Value.maxExactExponent + 2 ≤ width)
    (h : (Tree.sum ts).Normal) (hdegree : (Tree.sum ts).degree 1 ≤ degree)
    (hmax : degree ≤ Value.maxExactExponent) (heffort : (Tree.sum ts).effort ≤ 1 + limit) :
    ∀ t ∈ ts, t.IsReady width degree limit := by
  intro t ht
  have hfits := Tree.Normal.fits hwidth _ h (hdegree.trans hmax)
  have hterm : t.degree 1 ≤ highestDegree 1 ts := highestDegree_le_iff.mp le_rfl t ht
  have hle : t.effort ≤ totalEffort ts := effort_le_totalEffort ht
  simp only [Tree.degree, Tree.effort] at hdegree heffort
  exact ⟨1, (Tree.fits_sum.mp hfits).2 t ht, by omega, by omega⟩

theorem combineStep_ok (hcanonical : Canonizes I width limit canonical)
    (hmax : degree ≤ Value.maxExactExponent) (hsteps : enoughSteps width limit ≤ steps)
    {combined : List Term} {t : Term} {a x : Rat} (hcombined : ∀ s ∈ combined, s.Within degree limit)
    (ht : t.IsReady width degree limit) (ha : total? I combined = some a)
    (hx : t.meaning? I = some x) :
    ∃ combined' more b y, combineStep steps canonical combined t = .ok (combined', more) ∧
      (∀ s ∈ combined', s.Within degree limit) ∧ (∀ s ∈ more, s.IsReady width degree limit) ∧
      total? I combined' = some b ∧ total? I more = some y ∧ b + y = a + x ∧
      totalEffort more < t.effort ∧
      totalEffort combined' + totalEffort more ≤ totalEffort combined + t.effort ∧
      (degree = 0 → combined.length ≤ 1 → combined'.length ≤ 1) := by
  obtain ⟨s, hs, hsx, hwithin, heffort⟩ := simplifyBy_ready hcanonical ht hx hsteps
  obtain ⟨c, hc, hcx, hnormal, hcdegree, hceffort, hsum⟩ := hwithin.normal.reduce_ok hsx
  have hpos := t.effort_pos
  by_cases hc' : ∃ ts, c = .sum ts
  · -- the terms of the sum take the place of the term
    obtain ⟨ts, rfl⟩ := hc'
    have hlt := hsum ts rfl
    simp only [Tree.effort] at hlt
    exact ⟨combined, ts, a, x, by simp [combineStep, hs, hc], hcombined,
      isReady_of_sum hcanonical.width_ge hnormal (hcdegree.trans hwithin.degree_le) hmax
        (hceffort.trans hwithin.effort_le),
      ha, hcx, rfl, by omega, by omega, fun _ h => h⟩
  have hnext : combineStep steps canonical combined t = (do
      if ← s.isZero then return (combined, [])
      else return (← combine steps canonical combined s, [])) := by
    cases c with
    | sum ts => exact absurd ⟨ts, rfl⟩ hc'
    | _ => simp [combineStep, hs, hc]
  obtain ⟨z, hz⟩ := Normal.isZero_ok s hwithin.normal
  cases z with
  | true =>
    obtain rfl := s.isZero_sound hz hsx
    exact ⟨combined, [], a, 0, by simp [hnext, hz], hcombined, by simp, ha, rfl, rfl, hpos,
      Nat.add_le_add_left (Nat.zero_le _) _, fun _ h => h⟩
  | false =>
    have hbudget : 3 * degree + 2 + 3 * limit * (3 * degree) ≤ steps := by
      refine le_trans (Nat.add_le_add ?_ ?_) hsteps
      · omega
      · exact Nat.mul_le_mul_left _ (Nat.mul_le_mul_left 3 hmax)
    obtain ⟨combined', hcombine, hwithin', hmeaning, hefforts, hlength⟩ :=
      combine_ok hcanonical hcombined hwithin hmax ha hsx hbudget
    refine ⟨combined', [], a + x, 0, by simp [hnext, hz, hcombine], hwithin', by simp, hmeaning, rfl,
      add_zero _, hpos, ?_, hlength⟩
    simp only [totalEffort]
    omega

theorem combineAll_ok (hcanonical : Canonizes I width limit canonical)
    (hmax : degree ≤ Value.maxExactExponent) (hsteps : enoughSteps width limit ≤ steps) (n : Nat)
    {combined pending : List Term} {a b : Rat} (hn : totalEffort pending ≤ n)
    (hcombined : ∀ s ∈ combined, s.Within degree limit)
    (hpending : ∀ t ∈ pending, t.IsReady width degree limit)
    (ha : total? I combined = some a) (hb : total? I pending = some b) :
    ∃ combined', combineAll steps canonical n combined pending = .ok combined' ∧
      (∀ s ∈ combined', s.Within degree limit) ∧ total? I combined' = some (a + b) ∧
      totalEffort combined' ≤ totalEffort combined + totalEffort pending ∧
      (degree = 0 → combined.length ≤ 1 → combined'.length ≤ 1) := by
  induction n generalizing combined pending a b with
  | zero =>
    cases pending with
    | nil =>
      obtain rfl : (0 : Rat) = b := Option.some.inj hb
      exact ⟨combined, rfl, hcombined, by rwa [add_zero], Nat.le_add_right _ _, fun _ h => h⟩
    | cons t pending =>
      have hpos := t.effort_pos
      simp only [totalEffort] at hn
      omega
  | succ n ih =>
    cases pending with
    | nil =>
      obtain rfl : (0 : Rat) = b := Option.some.inj hb
      exact ⟨combined, rfl, hcombined, by rwa [add_zero], Nat.le_add_right _ _, fun _ h => h⟩
    | cons t pending =>
      obtain ⟨ht, hothers⟩ := List.forall_mem_cons.mp hpending
      obtain ⟨x, y, hx, hy, rfl⟩ := total?_cons_eq_some.mp hb
      simp only [totalEffort] at hn ⊢
      obtain ⟨combined', more, c, z, hstep, hwithin, hmore, hc, hz, hsum, hlt, hefforts, hlength⟩ :=
        combineStep_ok hcanonical hmax hsteps hcombined ht ha hx
      have htotal : total? I (pending ++ more) = some (y + z) :=
        total?_append_eq_some.mpr ⟨y, z, hy, hz, rfl⟩
      obtain ⟨combined'', hrun, hwithin', hmeaning, hefforts', hlength'⟩ :=
        ih (by rw [totalEffort_append]; omega) hwithin (List.forall_mem_append.mpr ⟨hothers, hmore⟩)
          hc htotal
      rw [totalEffort_append] at hefforts'
      have hnext : combineAll steps canonical (n + 1) combined (t :: pending) = .ok combined'' := by
        rw [combineAll_cons, hstep]
        exact hrun
      refine ⟨combined'', hnext, hwithin', ?_, by omega, fun h0 h1 => hlength' h0 (hlength h0 h1)⟩
      rw [hmeaning, ← add_assoc a, ← hsum, add_assoc, add_comm z]

/-- The term is found to be zero. -/
def vanishes (t : Term) : Bool := t.isZero matches .ok true

theorem filterM_ok {ts : List Term} {a : Rat} (h : ∀ t ∈ ts, t.Normal)
    (ha : total? I ts = some a) :
    ts.filterM (fun t => do return !(← t.isZero)) = .ok (ts.filter (!·.vanishes)) ∧
      total? I (ts.filter (!·.vanishes)) = some a := by
  have hzero : ∀ t ∈ ts, t.isZero = .ok t.vanishes := by
    intro t ht
    obtain ⟨z, hz⟩ := Normal.isZero_ok t (h t ht)
    cases z <;> simp [vanishes, hz]
  refine ⟨filterM_eq_ok_filter fun t ht => by simp [hzero t ht], ?_⟩
  clear h
  induction ts generalizing a with
  | nil => exact ha
  | cons t ts ih =>
    obtain ⟨ht, hts⟩ := List.forall_mem_cons.mp hzero
    obtain ⟨x, y, hx, hy, rfl⟩ := total?_cons_eq_some.mp ha
    cases hv : t.vanishes with
    | true =>
      have hx0 := t.isZero_sound (ht.trans (by rw [hv])) hx
      simpa [List.filter_cons, hv, hx0] using ih hy hts
    | false => simpa [List.filter_cons, hv] using total?_cons_of hx (ih hy hts)

theorem totalEffort_filter_le (p : Term → Bool) (ts : List Term) :
    totalEffort (ts.filter p) ≤ totalEffort ts := by
  induction ts with
  | nil => simp
  | cons t ts ih =>
    rw [List.filter_cons]
    split <;> simp only [totalEffort] <;> omega

theorem zero_rank_ok : ∃ x, zero.rank = .ok x := by
  apply rank_ok
  intro f hf
  obtain rfl : f = .placeholder := by simpa [zero, ofValue, side] using hf
  exact ⟨1, by decide, Tree.whole_one.symm⟩

theorem simplifySumBy_ok {ts : List Term} {q : Rat} (hcanonical : Canonizes I width limit canonical)
    (hmax : degree ≤ Value.maxExactExponent) (hready : ∀ t ∈ ts, t.IsReady width degree limit)
    (hq : total? I ts = some q) (hsteps : enoughSteps width limit ≤ steps)
    (heffort : totalEffort ts ≤ limit) :
    ∃ ss, simplifySumBy steps canonical ts = .ok ss ∧ total? I ss = some q ∧
      (ss = [zero] ∨ ss ≠ [] ∧ (∀ s ∈ ss, s.Within degree limit) ∧
        totalEffort ss ≤ totalEffort ts ∧ (degree = 0 → ss.length ≤ 1)) := by
  have hrounds : totalEffort ts ≤ steps := by
    unfold enoughSteps at hsteps
    have hlimit : limit ≤ 3 * limit * (3 * Value.maxExactExponent) := by
      rw [Nat.mul_comm 3 limit, Nat.mul_assoc]
      exact Nat.le_mul_of_pos_right _ (by decide)
    omega
  obtain ⟨combined, hrun, hwithin, hmeaning, hefforts, hlength⟩ :=
    combineAll_ok hcanonical hmax hsteps steps hrounds (by simp) hready total?_nil hq
  obtain ⟨hfilter, htotal⟩ := filterM_ok (fun t ht => (hwithin t ht).normal) hmeaning
  have hfilter' : simplifySumBy steps canonical ts =
      summed (combined.filter (!·.vanishes)) := by
    simp only [simplifySumBy, hrun, ok_bind, hfilter]
  have hle := totalEffort_filter_le (!·.vanishes) combined
  have hmem : ∀ s ∈ combined.filter (!·.vanishes), s.Within degree limit :=
    fun s hs => hwithin s (List.mem_of_mem_filter hs)
  have hshort : (combined.filter (!·.vanishes)).length ≤ combined.length := List.length_filter_le _ _
  rw [hfilter']
  rw [zero_add] at htotal
  generalize combined.filter (!·.vanishes) = nonzero at htotal hle hmem hshort
  cases nonzero with
  | nil =>
    obtain ⟨ss, hss, hperm⟩ := sorted_ok (List.forall_mem_singleton.mpr zero_rank_ok)
    obtain rfl := List.perm_singleton.mp hperm
    refine ⟨[zero], hss, ?_, .inl rfl⟩
    obtain rfl : (0 : Rat) = q := Option.some.inj htotal
    rw [← add_zero (0 : Rat)]
    exact total?_cons_of (meaning?_ofValue 0) rfl
  | cons s nonzero =>
    have hrank : ∀ r ∈ s :: nonzero, ∃ x, r.rank = .ok x := by
      intro r hr
      apply rank_ok
      intro f hf
      obtain ⟨base, exponent⟩ := f
      exact (Tree.fits_power.mp ((hmem r hr).factors hcanonical.width_ge hmax _ hf).1).2.1
    obtain ⟨ss, hss, hperm⟩ := sorted_ok hrank
    refine ⟨ss, hss, (total?_perm hperm).trans htotal, .inr ⟨?_, fun r hr => ?_, ?_, fun h0 => ?_⟩⟩
    · rintro rfl
      exact List.cons_ne_nil _ _ (List.nil_perm.mp hperm)
    · exact hmem r (hperm.mem_iff.mp hr)
    · rw [totalEffort_perm hperm]
      simp only [totalEffort] at hefforts
      omega
    · rw [hperm.length_eq]
      exact hshort.trans (hlength h0 (Nat.zero_le _))

end Term

end SymbolicAlgebra
