import SymbolicAlgebra.Proofs.Building
import SymbolicAlgebra.Proofs.SumSimplification

/-!
# How trees grow when they are built

On a tree that fits and has a meaning no predicate fails, and so neither does building a term from
it. Unwrapping a tree does not make it larger, and folding factors into a term keeps their degree,
the effort of their bases and nearly their number.
-/

namespace SymbolicAlgebra

open Outcome

variable {I : Interpretation} {least width : Nat}

mutual

theorem Tree.isOne_fits : (t : Tree) → t.Fits least width → ∃ b, t.isOne = .ok b
  | .number v, _ => ⟨v.isOne, rfl⟩
  | .constant _, _ | .variable _, _ | .call .., _ | .sum [], _ | .sum (_ :: _ :: _), _ =>
    ⟨false, rfl⟩
  | .power f, h => f.isOne_fits h
  | .term t, h => t.isOne_fits h
  | .sum [t], h => t.isOne_fits ((Tree.fits_sum.mp h).2 t List.mem_cons_self)

theorem Factor.isOne_fits : (f : Factor) → (Tree.power f).Fits least width → ∃ b, f.isOne = .ok b
  | ⟨base, exponent⟩, h => by
    obtain ⟨-, ⟨n, -, rfl⟩, hbase⟩ := Tree.fits_power.mp h
    obtain ⟨b, hb⟩ := base.isOne_fits hbase
    by_cases hn : n = 0
    · exact ⟨true, by simp [Factor.isOne, hn]⟩
    · exact ⟨b, by simp [Factor.isOne, hn, hb]⟩

theorem Term.isOne_fits : (t : Term) → (Tree.term t).Fits least width → ∃ b, t.isOne = .ok b
  | ⟨m, d, top, bottom⟩, h => by
    have hfactors := (Tree.fits_term.mp h).2.2
    obtain ⟨a, ha⟩ := Factor.allOne_fits top fun f hf => hfactors f (List.mem_append_left _ hf)
    obtain ⟨b, hb⟩ := Factor.allOne_fits bottom fun f hf => hfactors f (List.mem_append_right _ hf)
    unfold Term.isOne
    split
    · cases b with
      | false => exact ⟨false, by simp [hb]⟩
      | true => exact ⟨a, by simp [hb, ha]⟩
    · exact ⟨false, rfl⟩

theorem Factor.allOne_fits : (fs : List Factor) → (∀ f ∈ fs, (Tree.power f).Fits least width) →
    ∃ b, Factor.allOne fs = .ok b
  | [], _ => ⟨true, rfl⟩
  | f :: rest, h => by
    obtain ⟨hf, hrest⟩ := List.forall_mem_cons.mp h
    obtain ⟨a, ha⟩ := f.isOne_fits hf
    obtain ⟨b, hb⟩ := Factor.allOne_fits rest hrest
    cases a <;> simp [Factor.allOne, ha, hb]

end

mutual

theorem Tree.isZero_fits : (t : Tree) → t.Fits least width → ∃ b, t.isZero = .ok b
  | .number v, _ => ⟨v.isZero, rfl⟩
  | .constant _, _ | .variable _, _ | .call .., _ => ⟨false, rfl⟩
  | .power f, h => f.isZero_fits h
  | .term t, h => t.isZero_fits h
  | .sum ts, h => Term.allZero_fits ts (Tree.fits_sum.mp h).2

theorem Factor.isZero_fits : (f : Factor) → (Tree.power f).Fits least width → ∃ b, f.isZero = .ok b
  | ⟨base, exponent⟩, h => by
    obtain ⟨-, ⟨n, -, rfl⟩, hbase⟩ := Tree.fits_power.mp h
    obtain ⟨b, hb⟩ := base.isZero_fits hbase
    cases b <;> simp [Factor.isZero, hb]

theorem Term.isZero_fits : (t : Term) → (Tree.term t).Fits least width → ∃ b, t.isZero = .ok b
  | ⟨m, d, top, bottom⟩, h => by
    have hfactors := (Tree.fits_term.mp h).2.2
    unfold Term.isZero
    split
    · exact ⟨true, rfl⟩
    · exact Factor.anyZero_fits top fun f hf => hfactors f (List.mem_append_left _ hf)

theorem Factor.anyZero_fits : (fs : List Factor) → (∀ f ∈ fs, (Tree.power f).Fits least width) →
    ∃ b, Factor.anyZero fs = .ok b
  | [], _ => ⟨false, rfl⟩
  | f :: rest, h => by
    obtain ⟨hf, hrest⟩ := List.forall_mem_cons.mp h
    obtain ⟨a, ha⟩ := f.isZero_fits hf
    obtain ⟨b, hb⟩ := Factor.anyZero_fits rest hrest
    cases a <;> simp [Factor.anyZero, ha, hb]

theorem Term.allZero_fits : (ts : List Term) → (∀ t ∈ ts, (Tree.term t).Fits least width) →
    ∃ b, Term.allZero ts = .ok b
  | [], _ => ⟨true, rfl⟩
  | t :: rest, h => by
    obtain ⟨ht, hrest⟩ := List.forall_mem_cons.mp h
    obtain ⟨a, ha⟩ := t.isZero_fits ht
    obtain ⟨b, hb⟩ := Term.allZero_fits rest hrest
    cases a <;> simp [Term.allZero, ha, hb]

end

mutual

theorem Tree.plainValue?_fits : (t : Tree) → {q : Rat} → t.Fits least width →
    t.meaning? I = some q → ∃ r, t.plainValue? = .ok r
  | .number v, _, _, _ => ⟨some v, rfl⟩
  | .constant _, _, _, _ | .variable _, _, _, _ | .call .., _, _, _ | .sum [], _, _, _
  | .sum (_ :: _ :: _), _, _, _ => ⟨none, rfl⟩
  | .power f, _, h, hq => f.value?_fits h hq
  | .term t, _, h, hq => t.plainValue?_fits h hq
  | .sum [t], _, h, hq => t.plainValue?_fits ((Tree.fits_sum.mp h).2 t List.mem_cons_self)
      ((Tree.meaning?_sum_singleton t).symm.trans hq)

theorem Factor.value?_fits : (f : Factor) → {q : Rat} → (Tree.power f).Fits least width →
    f.meaning? I = some q → ∃ r, f.value? = .ok r
  | ⟨base, exponent⟩, q, h, hq => by
    obtain ⟨-, ⟨n, hn, rfl⟩, hbase⟩ := Tree.fits_power.mp h
    obtain ⟨x, hx, hxn, rfl⟩ := Factor.meaning?_whole.mp hq
    obtain ⟨r, hr⟩ := base.plainValue?_fits hbase hx
    cases r with
    | none => exact ⟨none, by simp [Factor.value?, hr]⟩
    | some v =>
      obtain rfl := base.plainValue?_sound hr hx
      exact ⟨_, by simp [Factor.value?, hr, Value.exactPower?_exact hxn hn]; rfl⟩

theorem Term.plainValue?_fits : (t : Term) → {q : Rat} → (Tree.term t).Fits least width →
    t.meaning? I = some q → ∃ r, t.plainValue? = .ok r
  | ⟨multiplier, divisor, top, bottom⟩, q, h, hq => by
    obtain ⟨m, d, -, -, rfl, rfl, -⟩ := Term.meaning?_eq_some.mp hq
    have hfactors := (Tree.fits_term.mp h).2.2
    obtain ⟨a, ha⟩ := Factor.allOne_fits top fun f hf => hfactors f (List.mem_append_left _ hf)
    obtain ⟨b, hb⟩ := Factor.allOne_fits bottom fun f hf => hfactors f (List.mem_append_right _ hf)
    obtain ⟨v, hv⟩ := Value.div_exact_ok m d
    cases a <;> cases b <;> simp [Term.plainValue?, ha, hb, hv]

end

mutual

theorem Tree.isNegative_fits : (t : Tree) → t.Fits least width → ∃ b, t.isNegative = .ok b
  | .number v, _ => ⟨v.isNegative, rfl⟩
  | .constant _, _ | .variable _, _ | .call .., _ | .sum _, _ => ⟨false, rfl⟩
  | .term t, _ => ⟨t.isNegative, rfl⟩
  | .power f, h => f.isNegative_fits h

theorem Factor.isNegative_fits : (f : Factor) → (Tree.power f).Fits least width →
    ∃ b, f.isNegative = .ok b
  | ⟨base, exponent⟩, h => by
    obtain ⟨-, ⟨n, -, rfl⟩, hbase⟩ := Tree.fits_power.mp h
    obtain ⟨b, hb⟩ := base.isNegative_fits hbase
    by_cases hn : n = 1
    · exact ⟨b, by simp [Factor.isNegative, hn, hb]⟩
    · exact ⟨false, by simp [Factor.isNegative, hn]⟩

end

theorem Term.denominatorIsOne_fits {t : Term} (h : (Tree.term t).Fits least width) :
    ∃ b, t.denominatorIsOne = .ok b := by
  unfold denominatorIsOne
  split
  · exact Factor.allOne_fits t.bottom fun f hf =>
      (Tree.fits_term.mp h).2.2 f (List.mem_append_right _ hf)
  · exact ⟨false, rfl⟩

/-- The tree fits and is no larger than another in degree and effort. -/
structure Tree.FitsIn (least width : Nat) (c t : Tree) : Prop where
  fits : c.Fits least width
  degree_le : c.degree least ≤ t.degree least
  effort_le : c.effort ≤ t.effort

theorem Tree.Fits.fitsIn {t : Tree} (h : t.Fits least width) : t.FitsIn least width t :=
  ⟨h, le_rfl, le_rfl⟩

theorem Tree.FitsIn.trans {c s t : Tree} (h : c.FitsIn least width s)
    (hdegree : s.degree least ≤ t.degree least) (heffort : s.effort ≤ t.effort) :
    c.FitsIn least width t :=
  ⟨h.fits, h.degree_le.trans hdegree, h.effort_le.trans heffort⟩

theorem Tree.FitsIn.of_base {c b : Tree} (h : c.FitsIn least width b) :
    c.FitsIn least width (.power ⟨b, .whole 1⟩) :=
  h.trans (by simp [degree, Factor.degree]) (Nat.le_add_left _ _)

theorem Tree.FitsIn.of_factor {c : Tree} {f : Factor} {t : Term}
    (h : c.FitsIn least width (.power f)) (hf : f ∈ t.top ++ t.bottom) :
    c.FitsIn least width (.term t) := by
  refine h.trans ?_ ?_
  · have hle : f.degree least ≤ Factor.totalDegree least (t.top ++ t.bottom) :=
      Factor.degree_le_totalDegree hf
    rwa [Factor.totalDegree_append, ← Term.degree_eq] at hle
  · obtain ⟨base, exponent⟩ := f
    have hlt : base.effort < t.effort := Term.base_effort_lt hf
    simp only [effort, Factor.effort]
    omega

mutual

theorem Tree.reduce_fits : (t : Tree) → t.Fits least width →
    ∃ c, t.reduce = .ok c ∧ c.FitsIn least width t
  | .power f, h => f.reduce_fits h
  | .term t, h => t.reduce_fits h
  | .sum [t], h => by
    obtain ⟨c, hc, hin⟩ := t.reduce_fits ((Tree.fits_sum.mp h).2 t List.mem_cons_self)
    refine ⟨c, hc, hin.trans ?_ ?_⟩
    · simp [Tree.degree, Term.highestDegree]
    · simp only [Tree.effort, Term.totalEffort]
      omega
  | .number _, h | .constant _, h | .variable _, h | .sum [], h | .sum (_ :: _ :: _), h
  | .call .., h => ⟨_, rfl, h.fitsIn⟩

theorem Factor.reduce_fits : (f : Factor) → (Tree.power f).Fits least width →
    ∃ c, f.reduce = .ok c ∧ c.FitsIn least width (.power f)
  | ⟨base, exponent⟩, h => by
    obtain ⟨-, ⟨n, -, rfl⟩, hbase⟩ := Tree.fits_power.mp h
    by_cases hn : n = 1
    · subst hn
      obtain ⟨c, hc, hin⟩ := base.reduce_fits hbase
      exact ⟨c, by simp [Factor.reduce, hc], hin.of_base⟩
    · exact ⟨_, by simp [Factor.reduce, hn], h.fitsIn⟩

theorem Term.reduce_fits : (t : Term) → (Tree.term t).Fits least width →
    ∃ c, t.reduce = .ok c ∧ c.FitsIn least width (.term t)
  | ⟨multiplier, divisor, [⟨base, exponent⟩], bottom⟩, h => by
    have hmem : (⟨base, exponent⟩ : Factor) ∈
        (⟨multiplier, divisor, [⟨base, exponent⟩], bottom⟩ : Term).top ++ bottom :=
      List.mem_cons_self
    have hfactor := (Tree.fits_term.mp h).2.2 _ hmem
    obtain ⟨-, ⟨n, -, rfl⟩, hbase⟩ := Tree.fits_power.mp hfactor
    obtain ⟨whole, hwhole⟩ := Term.denominatorIsOne_fits h
    obtain ⟨one, hone⟩ := Factor.isOne_fits _ hfactor
    have hself := h.fitsIn
    rw [Term.reduce, hwhole]
    cases whole with
    | false => exact ⟨_, rfl, hself⟩
    | true =>
      simp only [ok_bind, hone, if_true]
      cases one with
      | true =>
        exact ⟨_, rfl, Tree.fits_number _, Nat.zero_le _, Tree.effort_pos (.term _)⟩
      | false =>
        simp only [Bool.false_eq_true, if_false]
        split
        · by_cases hn : n = 1
          · subst hn
            obtain ⟨c, hc, hin⟩ := base.reduce_fits hbase
            exact ⟨c, by simp [hc], hin.of_base.of_factor hmem⟩
          · exact ⟨_, by simp [hn], hself⟩
        · exact ⟨_, rfl, hself⟩
  | ⟨_, _, [], _⟩, h | ⟨_, _, _ :: _ :: _, _⟩, h => by
    rw [Term.reduce]
    · exact ⟨_, rfl, h.fitsIn⟩
    · simp

end

theorem Tree.fits_side {width : Nat} {fs : List Factor}
    (h : ∀ f ∈ fs, (Tree.power f).Fits 1 width) : ∀ f ∈ Term.side fs, (Tree.power f).Fits 1 width := by
  cases fs with
  | nil => exact List.forall_mem_singleton.mpr (Factor.fits_placeholder 1)
  | cons f fs => exact h

theorem Tree.absorb_opposite {base o : Tree} (c : Rat)
    (hvalue : (⟨base, .whole 1⟩ : Factor).value? = .ok none)
    (hnegative : base.isNegative = .ok true) (ho : o.IsOpposite base) :
    base.absorb (.whole 1) (.exact c) = .ok (.exact (c * -1), some ⟨o, .whole 1⟩) := by
  have hmul : (Value.exact c).mul .negativeOne = .ok (.exact (c * -1)) := Value.mul_exact c (-1)
  rw [absorb.eq_def]
  cases base with
  | number v =>
    obtain ⟨w, hw, rfl⟩ := ho
    simp [hvalue, hnegative, hw, hmul, ← whole_one]
  | power f =>
    obtain ⟨b, e⟩ := f
    obtain ⟨k, kept, hkept, ho⟩ := ho
    obtain ⟨u, hu, ho⟩ := bind_eq_ok.mp ho
    simp [hvalue, hnegative, hkept, hu, ho, hmul, ← whole_one]
  | term t =>
    obtain ⟨u, hu, ho⟩ := bind_eq_ok.mp ho
    simp [hvalue, hnegative, hu, ho, hmul, ← whole_one]
  | _ => exact ho.elim

theorem Term.opposite_fits {t : Term} {m : Rat} (hm : t.multiplier = .exact m)
    (h : (Tree.term t).Fits least width) :
    ∃ o, (do (← t.scale .negativeOne).reduce : Except Fault Tree) = .ok o ∧
      o.FitsIn least width (.term t) := by
  obtain ⟨multiplier, d, top, bottom⟩ := t
  obtain rfl : multiplier = .exact m := hm
  obtain ⟨hdegree, hlength, hfactors⟩ := Tree.fits_term.mp h
  have hscaled : (Tree.term ⟨.exact (m * -1), d, top, bottom⟩).Fits least width :=
    Tree.fits_term.mpr ⟨hdegree, hlength, hfactors⟩
  obtain ⟨o, ho, hin⟩ := Term.reduce_fits _ hscaled
  exact ⟨o, by simpa [scale, Value.negativeOne, Value.mul_exact] using ho, hin.trans le_rfl le_rfl⟩

theorem Term.ofSide_fits (hwidth : 2 ≤ width) (c : Rat) {f : Factor} {kept : Option Factor}
    (hf : (Tree.power f).Fits 1 width)
    (h : ∀ g ∈ kept.toList, (Tree.power g).FitsIn 1 width (.power f)) :
    (Tree.term ⟨.exact c, .one, side kept.toList, side []⟩).FitsIn 1 width (.power f) := by
  have hdegree : (⟨.exact c, .one, side kept.toList, side []⟩ : Term).degree 1 ≤ f.degree 1 := by
    rw [degree_eq]
    simp only [Factor.totalDegree_side]
    cases kept with
    | none => simp [Factor.totalDegree]
    | some g =>
      have hg : g.degree 1 ≤ f.degree 1 := (h g (by simp)).degree_le
      simpa [Factor.totalDegree] using hg
  refine ⟨Tree.fits_term.mpr ⟨hdegree.trans hf.degree_le, ?_, ?_⟩, hdegree, ?_⟩
  · cases kept <;> simpa [side] using hwidth
  · intro g hg
    rcases List.mem_append.mp hg with hg | hg
    · exact Tree.fits_side (fun g hg => (h g hg).fits) g hg
    · exact Tree.fits_side (fun g hg => absurd hg List.not_mem_nil) g hg
  · obtain ⟨base, exponent⟩ := f
    have hpos := base.effort_pos
    refine Term.effort_le_iff.mpr ⟨hpos, fun g hg => ?_⟩
    have hplaceholder : Factor.placeholder.base.effort ≤ base.effort := hpos
    cases kept with
    | none =>
      obtain rfl : g = .placeholder := by simpa [side] using hg
      exact hplaceholder
    | some k =>
      rcases List.mem_cons.mp hg with rfl | hg
      · have hle := (h g (by simp)).effort_le
        obtain ⟨b, e⟩ := g
        simpa [Tree.effort, Factor.effort] using hle
      · obtain rfl : g = .placeholder := by simpa [side] using hg
        exact hplaceholder

theorem Tree.absorb_fits (hwidth : 2 ≤ width) : (base : Tree) → {n : Int} → {q : Rat} → (c : Rat) →
    (Tree.power ⟨base, .whole n⟩).Fits 1 width →
    (⟨base, .whole n⟩ : Factor).meaning? I = some q →
    ∃ d kept, base.absorb (.whole n) (.exact c) = .ok (.exact d, kept) ∧
      ∀ f ∈ kept.toList, (Tree.power f).FitsIn 1 width (.power ⟨base, .whole n⟩) := by
  intro base n q c h hq
  obtain ⟨x, hx, hn, rfl⟩ := Factor.meaning?_whole.mp hq
  obtain ⟨hdegree, ⟨n', hn', hwhole⟩, hbase⟩ := Tree.fits_power.mp h
  obtain rfl := Tree.whole_inj.mp hwhole
  by_cases hn0 : n = 0
  · subst hn0
    exact ⟨c, none, base.absorb_zero _, by simp⟩
  obtain ⟨value?, hvalue⟩ := Factor.value?_fits _ h hq
  cases value? with
  | some v =>
    obtain rfl := Factor.value?_sound _ hvalue hq
    refine ⟨c * x ^ n, none, ?_, by simp⟩
    rw [absorb.eq_def]
    simp [hn0, hvalue, Value.mul_exact]
  | none =>
    obtain ⟨negative, hnegative⟩ := base.isNegative_fits hbase
    by_cases hflips : n = 1 ∧ negative = true
    · obtain ⟨rfl, rfl⟩ := hflips
      have hopposite : ∃ o : Tree, o.IsOpposite base ∧ o.FitsIn 1 width base := by
        cases base with
        | number v =>
          obtain rfl := meaning?_number_eq_some.mp hx
          exact ⟨_, ⟨_, rfl, rfl⟩, fits_number _, le_rfl, le_rfl⟩
        | power f =>
          obtain ⟨b, e⟩ := f
          obtain ⟨-, ⟨k, hk, rfl⟩, hb⟩ := Tree.fits_power.mp hbase
          obtain ⟨d, kept, hkept, hin⟩ := b.absorb_fits hwidth 1 hbase hx
          -- the sign goes into the coefficient of what is left of the power
          have hterm := Term.ofSide_fits hwidth d hbase hin
          obtain ⟨o, ho, hoin⟩ := Term.opposite_fits rfl hterm.fits
          exact ⟨o, ⟨_, _, hkept, ho⟩, hoin.trans hterm.degree_le hterm.effort_le⟩
        | term t =>
          obtain ⟨m, -, -, -, hm, -⟩ := Term.meaning?_eq_some.mp hx
          exact Term.opposite_fits hm hbase
        | _ => simp [isNegative] at hnegative
      obtain ⟨o, ho, hin⟩ := hopposite
      refine ⟨c * -1, _, absorb_opposite c hvalue hnegative ho, ?_⟩
      simp only [Option.toList_some, List.mem_singleton, forall_eq]
      have hpower : (Tree.power ⟨o, .whole 1⟩).degree 1 ≤ (Tree.power ⟨base, .whole 1⟩).degree 1 := by
        simpa [degree, Factor.degree] using hin.degree_le
      refine ⟨fits_power.mpr ⟨hpower.trans hdegree, ⟨1, hn', rfl⟩, hin.fits⟩, hpower, ?_⟩
      exact Nat.add_le_add_left hin.effort_le 1
    · have hsame : base.absorb (.whole n) (.exact c) = .ok (.exact c, some ⟨base, .whole n⟩) := by
        rw [absorb.eq_def]
        by_cases hn1 : n = 1
        · subst hn1
          have hpositive : negative = false := by simpa using hflips
          simp [hvalue, hnegative, hpositive]
        · simp [hn0, hn1, hvalue]
      refine ⟨c, _, hsame, ?_⟩
      simpa using h.fitsIn

def Factor.AllFit (width effort : Nat) (fs : List Factor) : Prop :=
  ∀ f ∈ fs, (Tree.power f).Fits 1 width ∧ f.base.effort ≤ effort

namespace Factor

variable {effort : Nat}

theorem AllFit.append {fs gs : List Factor} (hfs : AllFit width effort fs)
    (hgs : AllFit width effort gs) : AllFit width effort (fs ++ gs) :=
  fun f hf => (List.mem_append.mp hf).elim (hfs f) (hgs f)

theorem AllFit.mono {effort' : Nat} {fs : List Factor} (h : AllFit width effort fs)
    (heffort : effort ≤ effort') : AllFit width effort' fs :=
  fun f hf => ⟨(h f hf).1, (h f hf).2.trans heffort⟩

theorem AllFit.side {fs : List Factor} (h : AllFit width effort fs) (hpos : 1 ≤ effort) :
    AllFit width effort (Term.side fs) := by
  cases fs with
  | nil => exact List.forall_mem_singleton.mpr ⟨fits_placeholder 1, hpos⟩
  | cons f fs => exact h

theorem length_side_le (fs : List Factor) : (Term.side fs).length ≤ fs.length + 1 := by
  cases fs <;> simp [Term.side]

end Factor

namespace Term

variable {effort : Nat}

theorem collect_fits (hwidth : 2 ≤ width) {fs : List Factor} {x : Rat} (c : Rat)
    (h : Factor.AllFit width effort fs) (hx : Factor.product? I fs = some x) :
    ∃ d kept, collect (.exact c) fs = .ok (.exact d, kept) ∧ Factor.AllFit width effort kept ∧
      Factor.totalDegree 1 kept ≤ Factor.totalDegree 1 fs ∧ kept.length ≤ fs.length := by
  induction fs generalizing c x with
  | nil => exact ⟨c, [], rfl, h, le_rfl, le_rfl⟩
  | cons f fs ih =>
    obtain ⟨base, exponent⟩ := f
    obtain ⟨⟨hfits, heffort⟩, hfs⟩ := List.forall_mem_cons.mp h
    obtain ⟨y, z, hy, hz, rfl⟩ := Factor.product?_cons_eq_some.mp hx
    obtain ⟨-, ⟨n, -, rfl⟩, -⟩ := Tree.fits_power.mp hfits
    obtain ⟨d, stays, habsorb, hin⟩ := base.absorb_fits hwidth c hfits hy
    obtain ⟨d', kept, hrun, hkept, hdegree, hlength⟩ := ih d hfs hz
    refine ⟨d', stays.toList ++ kept,
      collect_cons_eq_ok.mpr ⟨.exact d, stays, kept, habsorb, hrun, rfl⟩, ?_, ?_, ?_⟩
    · refine Factor.AllFit.append (fun g hg => ⟨(hin g hg).fits, ?_⟩) hkept
      have hle := (hin g hg).effort_le
      obtain ⟨b, e⟩ := g
      simp only [Tree.effort, Factor.effort] at hle
      simp only at heffort ⊢
      omega
    · have hstays : Factor.totalDegree 1 stays.toList ≤ Factor.degree 1 ⟨base, .whole n⟩ := by
        cases stays with
        | none => exact Nat.zero_le _
        | some g =>
          have hg : g.degree 1 ≤ Factor.degree 1 ⟨base, .whole n⟩ := (hin g (by simp)).degree_le
          simpa [Factor.totalDegree] using hg
      rw [Factor.totalDegree_append, Factor.totalDegree]
      exact Nat.add_le_add hstays hdegree
    · have hstays : stays.toList.length ≤ 1 := by cases stays <;> simp
      rw [List.length_append, List.length_cons]
      omega

/-- A term whose factors fit and are few, and whose degree is bounded. -/
structure IsSlim (width count degree : Nat) (t : Term) : Prop where
  fits : ∀ f ∈ t.top ++ t.bottom, (Tree.power f).Fits 1 width
  length_le : t.top.length + t.bottom.length ≤ count
  degree_le : t.degree 1 ≤ degree

theorem IsSlim.mono {count count' degree degree' : Nat} {t : Term} (h : t.IsSlim width count degree)
    (hcount : count ≤ count') (hdegree : degree ≤ degree') : t.IsSlim width count' degree' :=
  ⟨h.fits, h.length_le.trans hcount, h.degree_le.trans hdegree⟩

theorem IsSlim.allFit {count degree : Nat} {t : Term} (h : t.IsSlim width count degree)
    (heffort : t.effort ≤ 1 + effort) :
    Factor.AllFit width effort t.top ∧ Factor.AllFit width effort t.bottom := by
  obtain ⟨-, hbases⟩ := effort_le_iff.mp heffort
  constructor <;> intro f hf
  · exact ⟨h.fits f (List.mem_append_left _ hf), hbases f (List.mem_append_left _ hf)⟩
  · exact ⟨h.fits f (List.mem_append_right _ hf), hbases f (List.mem_append_right _ hf)⟩

/-- Building a term from factors that fit adds at most a placeholder on either side. -/
theorem of_fits (hwidth : 2 ≤ width) {top bottom : List Factor} {m d n k : Rat}
    (htop : Factor.AllFit width effort top) (hbottom : Factor.AllFit width effort bottom)
    (hpos : 1 ≤ effort) (hn : Factor.product? I top = some n)
    (hk : Factor.product? I bottom = some k) (hd0 : d ≠ 0) (hk0 : k ≠ 0) :
    ∃ t, of (.exact m) (.exact d) top bottom = .ok t ∧ t.meaning? I = some (m * n / (d * k)) ∧
      t.IsSlim width (top.length + bottom.length + 2)
        (Factor.totalDegree 1 top + Factor.totalDegree 1 bottom) ∧ t.effort ≤ 1 + effort := by
  obtain ⟨m', keptTop, hm', hkeptTop, hdegree, hlength⟩ := collect_fits hwidth m htop hn
  obtain ⟨d', keptBottom, hd', hkeptBottom, hdegree', hlength'⟩ := collect_fits hwidth d hbottom hk
  have hof : of (.exact m) (.exact d) top bottom =
      .ok ⟨.exact m', .exact d', side keptTop, side keptBottom⟩ := by
    simp [of, hm', hd']
  have hfit := (hkeptTop.side hpos).append (hkeptBottom.side hpos)
  refine ⟨_, hof, of_meaning hof hn hk hd0 hk0, ⟨fun f hf => (hfit f hf).1, ?_, ?_⟩, ?_⟩
  · have hside := Factor.length_side_le keptTop
    have hside' := Factor.length_side_le keptBottom
    simp only
    omega
  · rw [degree_eq]
    simp only [Factor.totalDegree_side]
    exact Nat.add_le_add hdegree hdegree'
  · exact effort_le_iff.mpr ⟨hpos, fun f hf => (hfit f hf).2⟩

end Term

end SymbolicAlgebra
