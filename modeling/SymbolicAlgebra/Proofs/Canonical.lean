import SymbolicAlgebra.Proofs.SumSimplification

/-!
# One level of simplification

Given a function that brings the trees within to canonical form, every kind of tree is simplified to
one of the same meaning that is reduced to a normal form of it. A power becomes a term first, with
the sign of a negative base pulled out.
-/

namespace SymbolicAlgebra

open Outcome

variable {I : Interpretation}

namespace Term

theorem meaning?_single {m y : Rat} {f : Factor} (hf : f.meaning? I = some y) :
    (⟨.exact m, .one, [f], side []⟩ : Term).meaning? I = some (m * y) :=
  meaning?_eq_some.mpr ⟨m, 1, y, 1, rfl, rfl, (Factor.product?_singleton f).trans hf,
    Factor.product?_side [], one_ne_zero, one_ne_zero, by simp⟩

theorem opposite_ok {t : Term} {x : Rat} (h : t.Normal) (hx : t.meaning? I = some x) :
    ∃ c, (do (← t.scale .negativeOne).reduce : Except Fault Tree) = .ok c ∧
      c.meaning? I = some (-x) ∧ c.Normal ∧ c.degree 1 ≤ t.degree 1 ∧ c.effort ≤ t.effort := by
  obtain ⟨m, d, n, k, hm, hd, hn, hk, hd0, hk0, rfl⟩ := meaning?_eq_some.mp hx
  obtain ⟨-, -, htop, hbottom⟩ := normal_iff.mp h
  have hscale : t.scale .negativeOne = .ok { t with multiplier := .exact (m * -1) } := by
    simp [scale, hm, Value.negativeOne, Value.mul_exact]
  have hnormal : Term.Normal { t with multiplier := .exact (m * -1) } :=
    normal_iff.mpr ⟨⟨_, rfl⟩, ⟨d, hd⟩, htop, hbottom⟩
  have hmeaning : Term.meaning? I { t with multiplier := .exact (m * -1) } =
      some (-(m * n / (d * k))) :=
    meaning?_eq_some.mpr ⟨m * -1, d, n, k, rfl, hd, hn, hk, hd0, hk0, by ring⟩
  obtain ⟨c, hc, hcx, hcnormal, hdegree, heffort, -⟩ := hnormal.reduce_ok hmeaning
  rw [degree_eq] at hdegree ⊢
  rw [effort_eq] at heffort ⊢
  exact ⟨c, by rw [hscale]; exact hc, hcx, hcnormal, hdegree, heffort⟩

theorem absorb_flips {t : Term} {c : Tree} (hplain : t.plainValue? = .ok none)
    (hsign : t.isNegative = true)
    (hc : (do (← t.scale .negativeOne).reduce : Except Fault Tree) = .ok c) :
    (Tree.term t).absorb (.whole 1) .one = .ok (.exact (-1), some ⟨c, .whole 1⟩) := by
  have hvalue : (⟨.term t, .whole 1⟩ : Factor).value? = .ok none :=
    Factor.value?_of_not_plain hplain
  have hmul : Value.one.mul .negativeOne = .ok (.exact (-1)) := by
    simp [Value.one, Value.negativeOne, Value.mul_exact]
  obtain ⟨r, hr, hrc⟩ := bind_eq_ok.mp hc
  rw [Tree.absorb.eq_def]
  simp [hvalue, Tree.isNegative, hsign, hr, hrc, hmul, ← Tree.whole_one]

/-- A whole power of a normal tree that is no number becomes a term with a single factor, whose
base is the tree or its opposite, or with none. -/
theorem ofFactor_ok {c : Tree} {x : Rat} {n : Int} (h : c.Normal)
    (hplain : c.plainValue? = .ok none) (hx : c.meaning? I = some x) (hn : x ≠ 0 ∨ 0 ≤ n) :
    ∃ m g, ofFactor ⟨c, .whole n⟩ = .ok ⟨.exact m, .one, [g], side []⟩ ∧
      (⟨.exact m, .one, [g], side []⟩ : Term).meaning? I = some (x ^ n) ∧
      (g = .placeholder ∨ ∃ c', g = ⟨c', .whole n⟩ ∧ c'.Normal ∧ c'.degree 1 ≤ c.degree 1 ∧
        c'.effort ≤ c.effort ∧ (c' = c ∨ ∃ t, c = .term t ∧
          (do (← t.scale .negativeOne).reduce : Except Fault Tree) = .ok c')) := by
  have hof : ∀ m kept, c.absorb (.whole n) .one = .ok (.exact m, kept) →
      ofFactor ⟨c, .whole n⟩ = .ok ⟨.exact m, .one, side kept.toList, side []⟩ := by
    intro m kept habsorb
    simp [ofFactor, of, collect, habsorb]
  by_cases hn0 : n = 0
  · subst hn0
    refine ⟨1, .placeholder, hof 1 none (c.absorb_zero .one), ?_, .inl rfl⟩
    rw [zpow_zero]
    exact meaning?_ofValue 1
  by_cases hsign : n = 1 ∧ ∃ t, c = .term t ∧ t.isNegative = true
  · obtain ⟨rfl, t, rfl, hneg⟩ := hsign
    obtain ⟨c', hc', hx', hnormal, hdegree, heffort⟩ := opposite_ok h hx
    refine ⟨_, _, hof _ _ (absorb_flips hplain hneg hc'), ?_,
      .inr ⟨c', rfl, hnormal, hdegree, heffort, .inr ⟨t, rfl, hc'⟩⟩⟩
    have hpower : (⟨c', .whole 1⟩ : Factor).meaning? I = some ((-x) ^ (1 : Int)) :=
      Factor.meaning?_whole.mpr ⟨-x, hx', .inr Int.one_nonneg, rfl⟩
    refine (meaning?_single hpower).trans ?_
    simp
  · have hkept : n = 1 → c.isNegative = .ok false := by
      intro hn1
      cases c with
      | number v => cases hplain
      | power f => exact h.elim
      | term t =>
        have hpositive : t.isNegative ≠ true := fun hneg => hsign ⟨hn1, t, rfl, hneg⟩
        simp [Tree.isNegative, hpositive]
      | _ => rfl
    refine ⟨_, _, hof 1 _ (Tree.absorb_keeps hn0 hplain hkept .one), ?_,
      .inr ⟨c, rfl, h, le_rfl, le_rfl, .inl rfl⟩⟩
    have hpower : (⟨c, .whole n⟩ : Factor).meaning? I = some (x ^ n) :=
      Factor.meaning?_whole.mpr ⟨x, hx, hn, rfl⟩
    exact (meaning?_single hpower).trans (by rw [one_mul])

theorem isReady_single {width degree limit effort : Nat} {m : Rat} {g : Factor}
    (hwidth : 2 ≤ width) (hfits : (Tree.power g).Fits 1 width) (hdegree : g.degree 1 ≤ degree)
    (hbase : g.base.effort ≤ effort) (hpos : 1 ≤ effort) (hlimit : effort ≤ limit) :
    IsReady width degree limit ⟨.exact m, .one, [g], side []⟩ ∧
      (⟨.exact m, .one, [g], side []⟩ : Term).effort ≤ 1 + effort := by
  have hfactors : ∀ f ∈ [g] ++ side [],
      (Tree.power f).Fits 1 width ∧ f.base.effort ≤ effort := by
    intro f hf
    rcases List.mem_cons.mp hf with rfl | hf
    · exact ⟨hfits, hbase⟩
    · obtain rfl : f = .placeholder := List.mem_singleton.mp hf
      exact ⟨Factor.fits_placeholder 1, hpos⟩
  have hsum : (⟨.exact m, .one, [g], side []⟩ : Term).degree 1 = g.degree 1 := by
    rw [degree_eq]
    simp [Factor.totalDegree_side, Factor.totalDegree]
  have heffort : (⟨.exact m, .one, [g], side []⟩ : Term).effort ≤ 1 + effort :=
    effort_le_iff.mpr ⟨hpos, fun f hf => (hfactors f hf).2⟩
  refine ⟨⟨1, Tree.fits_term.mpr ⟨?_, hwidth, fun f hf => (hfactors f hf).1⟩, ?_, ?_⟩, heffort⟩
  · rw [hsum]
    exact hfits.degree_le
  · rw [hsum]
    exact hdegree
  · exact heffort.trans (Nat.add_le_add_left hlimit 1)

end Term

namespace Tree

/-- The second tree means what the first one means, and is reduced to a form of it. -/
def SimplifiesTo (I : Interpretation) (least : Nat) (t s : Tree) : Prop :=
  s.meaning? I = t.meaning? I ∧ ∃ c, s.reduce = .ok c ∧ c.IsFormOf I least t

/-- The terms of the tree are in lowest terms, and it fits. -/
structure IsSimple (width : Nat) (s : Tree) : Prop where
  lowest : s.InLowestTerms
  fits : s.Fits 1 width

variable {canonical : Tree → Except Fault Tree} {width limit steps least : Nat} {q : Rat}

theorem simplifiesTo_term {t : Tree} {s : Term} {effort : Nat}
    (hwidth : Value.maxExactExponent + 2 ≤ width) (hfits : t.Fits least width)
    (hq : t.meaning? I = some q) (hs : s.meaning? I = some q)
    (hwithin : s.Within (t.degree least) effort) (heffort : s.effort ≤ t.effort) :
    t.SimplifiesTo I least (.term s) ∧ (term s).IsSimple width := by
  obtain ⟨c, hc, hcq, hnormal, hdegree, hceffort, -⟩ := hwithin.normal.reduce_ok hs
  have hlowest := hwithin.normal.reduce_inLowestTerms hwithin.tidy.lowest hc
  exact ⟨⟨hs.trans hq.symm, c, hc, hcq.trans hq.symm, ⟨hnormal, hlowest⟩,
    hdegree.trans hwithin.degree_le, hceffort.trans heffort⟩, hwithin.tidy.lowest,
    Term.Normal.fits hwidth s hwithin.normal (hwithin.degree_le.trans hfits.degree_le)⟩

theorem simplifyBy_term_ok {t : Term} (hcanonical : Canonizes I width limit canonical)
    (hfits : (term t).Fits least width) (heffort : (term t).effort ≤ 1 + limit)
    (hq : (term t).meaning? I = some q) (hsteps : Term.enoughSteps width limit ≤ steps) :
    ∃ s, (term t).simplifyBy steps canonical = .ok s ∧ (term t).SimplifiesTo I least s ∧
      s.IsSimple width := by
  have hready : t.IsReady width (t.degree least) limit := ⟨least, hfits, le_rfl, heffort⟩
  obtain ⟨s, hs, hsq, hwithin, hle⟩ := Term.simplifyBy_ready hcanonical hready hq hsteps
  exact ⟨.term s, by simp [simplifyBy, hs],
    simplifiesTo_term hcanonical.width_ge hfits hq hsq hwithin hle⟩

theorem simplifyBy_sum_ok {ts : List Term} (hcanonical : Canonizes I width limit canonical)
    (hfits : (sum ts).Fits least width) (heffort : (sum ts).effort ≤ 1 + limit)
    (hq : (sum ts).meaning? I = some q) (hsteps : Term.enoughSteps width limit ≤ steps) :
    ∃ s, (sum ts).simplifyBy steps canonical = .ok s ∧ (sum ts).SimplifiesTo I least s ∧
      s.IsSimple width := by
  have htotal : Term.totalEffort ts ≤ limit := by simpa [effort] using heffort
  have hready : ∀ t ∈ ts, t.IsReady width ((sum ts).degree least) limit := by
    intro t ht
    have hdegree : t.degree least ≤ Term.highestDegree least ts :=
      Term.highestDegree_le_iff.mp le_rfl t ht
    have hle := Term.effort_le_totalEffort ht
    exact ⟨least, (fits_sum.mp hfits).2 t ht, hdegree.trans (Nat.le_max_right _ _), by omega⟩
  obtain ⟨ss, hss, hmeaning, hshape⟩ :=
    Term.simplifySumBy_ok hcanonical hfits.degree_le hready hq hsteps htotal
  refine ⟨.sum ss, by simp [simplifyBy, hss], ⟨hmeaning.trans hq.symm, ?_⟩, ?_⟩
  · rcases hshape with rfl | ⟨hne, hwithin, hefforts, hsingle⟩
    · refine ⟨.zero, rfl, ?_, ⟨rfl, allTerms_number _⟩, Nat.zero_le _, ?_⟩
      · rw [hq]
        exact (Term.meaning?_ofValue 0).symm.trans
          ((meaning?_sum_singleton Term.zero).symm.trans hmeaning)
      · simp [zero, effort]
    · cases ss with
      | nil => exact absurd rfl hne
      | cons s rest =>
      cases rest with
      | nil =>
        have hs := hwithin s (List.mem_singleton_self s)
        obtain ⟨c, hc, hcq, hnormal, hdegree, hceffort, -⟩ :=
          hs.normal.reduce_ok ((meaning?_sum_singleton s).symm.trans hmeaning)
        have hlowest := hs.normal.reduce_inLowestTerms hs.tidy.lowest hc
        refine ⟨c, hc, hcq.trans hq.symm, ⟨hnormal, hlowest⟩, hdegree.trans hs.degree_le, ?_⟩
        simp only [effort, Term.totalEffort] at hefforts ⊢
        omega
      | cons s' rest =>
        have hpos : (sum ts).degree least ≠ 0 := by
          intro h0
          have hlength := hsingle h0
          simp only [List.length_cons] at hlength
          omega
        have hhighest : Term.highestDegree 1 (s :: s' :: rest) ≤ (sum ts).degree least :=
          Term.highestDegree_le_iff.mpr fun r hr => (hwithin r hr).degree_le
        refine ⟨.sum (s :: s' :: rest), rfl, hmeaning.trans hq.symm, ⟨⟨?_, ?_⟩, ?_⟩, ?_, ?_⟩
        · simp
        · exact Term.allNormal_iff.mpr fun r hr => (hwithin r hr).normal
        · exact allTerms_sum.mpr fun r hr => (hwithin r hr).tidy.lowest
        · exact Nat.max_le.mpr ⟨Nat.one_le_iff_ne_zero.mpr hpos, hhighest⟩
        · exact Nat.add_le_add_left hefforts 1
  · have hwithin : ∀ s ∈ ss, s.Within ((sum ts).degree least) (max limit 1) := by
      rcases hshape with rfl | ⟨-, hwithin, -, -⟩
      · exact List.forall_mem_singleton.mpr (Term.zero_within (Nat.le_max_right _ _))
      · exact fun s hs => (hwithin s hs).mono le_rfl (Nat.le_max_left _ _)
    have hhighest : Term.highestDegree 1 ss ≤ Value.maxExactExponent :=
      Term.highestDegree_le_iff.mpr fun s hs => (hwithin s hs).degree_le.trans hfits.degree_le
    exact ⟨allTerms_sum.mpr fun s hs => (hwithin s hs).tidy.lowest,
      fits_sum.mpr ⟨Nat.max_le.mpr ⟨by decide, hhighest⟩,
        Term.AllNormal.fits hcanonical.width_ge ss
          (Term.allNormal_iff.mpr fun s hs => (hwithin s hs).normal) hhighest⟩⟩

theorem ofFactor_isReady {b c : Tree} {n : Int} {x : Rat} (hwidth : Value.maxExactExponent + 2 ≤ width)
    (hfits : (power ⟨b, .whole n⟩).Fits least width) (hlimit : b.effort ≤ limit)
    (hform : c.IsFormOf I least b) (hx : b.meaning? I = some x) (hxn : x ≠ 0 ∨ 0 ≤ n)
    (hplain : c.plainValue? = .ok none) :
    ∃ u, Term.ofFactor ⟨c, .whole n⟩ = .ok u ∧ u.meaning? I = some (x ^ n) ∧
      u.IsReady width ((power ⟨b, .whole n⟩).degree least) limit ∧ u.effort ≤ 1 + b.effort ∧
      ∀ g ∈ u.top ++ u.bottom, g.base = .one ∨ g.base = c ∨ ∃ t, c = .term t ∧
        (do (← t.scale .negativeOne).reduce : Except Fault Tree) = .ok g.base := by
  obtain ⟨hdegree, ⟨k, hk, hnk⟩, hbase⟩ := fits_power.mp hfits
  obtain rfl := whole_inj.mp hnk
  have hpower : n.natAbs * c.degree 1 ≤ (power ⟨b, .whole n⟩).degree least := by
    simpa [degree, Factor.degree] using Nat.mul_le_mul_left n.natAbs hform.degree_le
  obtain ⟨m, g, hu, hmeaning, hshape⟩ :=
    Term.ofFactor_ok hform.normal hplain (hform.meaning.trans hx) hxn
  have hg : (power g).Fits 1 width ∧ g.degree 1 ≤ (power ⟨b, .whole n⟩).degree least ∧
      g.base.effort ≤ b.effort := by
    rcases hshape with rfl | ⟨c', rfl, hnormal, hdegree', heffort', -⟩
    · exact ⟨Factor.fits_placeholder 1, (Factor.degree_placeholder 1).trans_le (Nat.zero_le _),
        b.effort_pos⟩
    · have hle : (power ⟨c', .whole n⟩).degree 1 ≤ (power ⟨b, .whole n⟩).degree least := by
        refine le_trans ?_ hpower
        simpa [degree, Factor.degree] using Nat.mul_le_mul_left n.natAbs hdegree'
      have hbounded : c'.degree 1 ≤ Value.maxExactExponent :=
        hdegree'.trans (hform.degree_le.trans hbase.degree_le)
      exact ⟨fits_power.mpr ⟨hle.trans hdegree, ⟨n, hk, rfl⟩,
        Normal.fits hwidth c' hnormal hbounded⟩, hle, heffort'.trans hform.effort_le⟩
  obtain ⟨hready, hle⟩ := Term.isReady_single (m := m) ((Nat.le_add_left _ _).trans hwidth) hg.1
    hg.2.1 hg.2.2 b.effort_pos hlimit
  refine ⟨_, hu, hmeaning, hready, hle, fun g' hg' => ?_⟩
  rcases List.mem_cons.mp hg' with rfl | hg'
  · rcases hshape with rfl | ⟨c', rfl, -, -, -, hbase⟩
    · exact .inl rfl
    · exact .inr hbase
  · rw [List.mem_singleton.mp hg']
    exact .inl rfl

theorem simplifyBy_power_ok {f : Factor} (hcanonical : Canonizes I width limit canonical)
    (hfits : (power f).Fits least width) (heffort : (power f).effort ≤ 1 + limit)
    (hq : (power f).meaning? I = some q) (hsteps : Term.enoughSteps width limit ≤ steps) :
    ∃ s, (power f).simplifyBy steps canonical = .ok s ∧ (power f).SimplifiesTo I least s ∧
      s.IsSimple width := by
  obtain ⟨b, e⟩ := f
  obtain ⟨-, ⟨n, hn, rfl⟩, hbase⟩ := fits_power.mp hfits
  obtain ⟨x, hx, hxn, rfl⟩ := Factor.meaning?_whole.mp hq
  have hlimit : b.effort ≤ limit := by simpa [effort, Factor.effort] using heffort
  obtain ⟨c, hc, hform⟩ := hcanonical.tree hbase hlimit hx
  have hcx := hform.meaning.trans hx
  have hnorm := Factor.normalize_ok (n := n) hcanonical.number hc hform.normal
  obtain ⟨r, hr⟩ := hform.normal.plainValue?_ok
  cases r with
  | some v =>
    have hvalue := Factor.value?_of_plain hcx hr hxn hn
    refine ⟨.number (.exact (x ^ n)), by simp [simplifyBy, hnorm, hvalue], ⟨hq.symm, _, rfl,
      hq.symm, ⟨rfl, allTerms_number _⟩, Nat.zero_le _, ?_⟩, allTerms_number _,
      fits_number _⟩
    simp [effort, Factor.effort]
  | none =>
    have hvalue := Factor.value?_of_not_plain (n := n) hr
    obtain ⟨u, hu, hmeaning, hready, hle', -⟩ :=
      ofFactor_isReady hcanonical.width_ge hfits hlimit hform hx hxn hr
    obtain ⟨s, hs, hsq, hwithin, hle⟩ := Term.simplifyBy_ready hcanonical hready hmeaning hsteps
    exact ⟨.term s, by simp [simplifyBy, hnorm, hvalue, hu, hs],
      simplifiesTo_term hcanonical.width_ge hfits hq hsq hwithin (hle.trans hle')⟩

theorem meanings?_of_forms {args args' : List Tree}
    (h : List.Forall₂ (fun a c => c.IsFormOf I least a) args args') :
    Tree.meanings? I args' = Tree.meanings? I args ∧ totalEffort args' ≤ totalEffort args := by
  induction h with
  | nil => exact ⟨rfl, le_rfl⟩
  | cons ha _ ih =>
    refine ⟨?_, Nat.add_le_add ha.effort_le ih.2⟩
    simp only [meanings?, ha.meaning, ih.1]

theorem exists_form_of_mem {args args' : List Tree}
    (h : List.Forall₂ (fun a c => c.IsFormOf I least a) args args') :
    ∀ c ∈ args', ∃ a ∈ args, c.IsFormOf I least a := by
  induction h with
  | nil => simp
  | cons ha _ ih =>
    intro c hc
    rcases List.mem_cons.mp hc with rfl | hc
    · exact ⟨_, List.mem_cons_self, ha⟩
    · obtain ⟨a, ha, hform⟩ := ih c hc
      exact ⟨a, List.mem_cons_of_mem _ ha, hform⟩

theorem simplifyBy_call_ok {f : Function} {args : List Tree}
    (hcanonical : Canonizes I width limit canonical) (hfits : (call f args).Fits least width)
    (heffort : (call f args).effort ≤ 1 + limit) (hq : (call f args).meaning? I = some q) :
    ∃ s, (call f args).simplifyBy steps canonical = .ok s ∧
      (call f args).SimplifiesTo I least s ∧ s.IsSimple width := by
  have htotal : totalEffort args ≤ limit := by simpa [effort] using heffort
  obtain ⟨qs, hqs, -⟩ := Option.bind_eq_some_iff.mp hq
  obtain ⟨args', hargs', hforms⟩ := mapM_ok (f := canonical)
    (R := fun a c => c.IsFormOf I least a) (l := args) fun a ha => by
      obtain ⟨x, hx⟩ := exists_meaning_of_mem hqs ha
      exact hcanonical.tree (fits_call.mp hfits a ha) ((effort_le_totalEffort ha).trans htotal) hx
  obtain ⟨hmeanings, hefforts⟩ := meanings?_of_forms hforms
  have hmeaning : (call f args').meaning? I = (call f args).meaning? I := by
    simp only [meaning?, hmeanings]
  have hnormal : (call f args').Normal := by
    refine ⟨allNormal_iff.mpr fun c hc => ?_, fun c hc => ?_⟩
    · obtain ⟨_, _, hform⟩ := exists_form_of_mem hforms c hc
      exact hform.normal
    · obtain ⟨a, ha, hform⟩ := exists_form_of_mem hforms c hc
      exact hform.degree_le.trans (fits_call.mp hfits a ha).degree_le
  have hlowest : (call f args').InLowestTerms := allTerms_call.mpr fun c hc => by
    obtain ⟨_, _, hform⟩ := exists_form_of_mem hforms c hc
    exact hform.tidy.lowest
  exact ⟨.call f args', by simp [simplifyBy, hargs'], ⟨hmeaning, .call f args', rfl, hmeaning,
    ⟨hnormal, hlowest⟩, le_rfl, Nat.add_le_add_left hefforts 1⟩, hlowest,
    hnormal.fits hcanonical.width_ge _ (by decide : 1 ≤ Value.maxExactExponent)⟩

theorem simplifyBy_ok {t : Tree} (hcanonical : Canonizes I width limit canonical)
    (hfits : t.Fits least width) (heffort : t.effort ≤ 1 + limit) (hq : t.meaning? I = some q)
    (hsteps : Term.enoughSteps width limit ≤ steps) :
    ∃ s, t.simplifyBy steps canonical = .ok s ∧ t.SimplifiesTo I least s ∧ s.IsSimple width := by
  have hself : t.reduce = .ok t → t.Normal → t.InLowestTerms → t.degree 1 ≤ t.degree least →
      t.SimplifiesTo I least t ∧ t.IsSimple width := fun hreduce hnormal hlowest hdegree =>
    ⟨⟨rfl, t, hreduce, rfl, ⟨hnormal, hlowest⟩, hdegree, le_rfl⟩, hlowest,
      hnormal.fits hcanonical.width_ge _ (hdegree.trans hfits.degree_le)⟩
  cases t with
  | number v =>
    obtain rfl := meaning?_number_eq_some.mp hq
    exact ⟨_, rfl, hself rfl rfl (allTerms_number _) le_rfl⟩
  | power f => exact simplifyBy_power_ok hcanonical hfits heffort hq hsteps
  | term t => exact simplifyBy_term_ok hcanonical hfits heffort hq hsteps
  | sum ts => exact simplifyBy_sum_ok hcanonical hfits heffort hq hsteps
  | call f args => exact simplifyBy_call_ok hcanonical hfits heffort hq
  | _ => exact ⟨_, rfl, hself rfl trivial (by simp [AllTerms, nodes]) le_rfl⟩

end Tree

end SymbolicAlgebra
