import SymbolicAlgebra.Proofs.Run
import SymbolicAlgebra.Proofs.TermForm

/-!
# Simplifying a term

A term is simplified to a normal term of the same meaning. Its degree is bounded by what bounds the
balance of the given term under all tallies, which the degree of the given term does.
-/

namespace SymbolicAlgebra

open Outcome

variable {I : Interpretation}

/-- A tidy term within bounds on its degree and on the effort of its bases. -/
structure Term.Within (degree effort : Nat) (t : Term) : Prop where
  tidy : (Tree.term t).IsTidy
  degree_le : t.degree 1 ≤ degree
  effort_le : t.effort ≤ 1 + effort

namespace Term

theorem Within.normal {degree effort : Nat} {t : Term} (h : t.Within degree effort) : t.Normal :=
  h.tidy.normal

theorem Within.mono {degree degree' effort effort' : Nat} {t : Term} (h : t.Within degree effort)
    (hdegree : degree ≤ degree') (heffort : effort ≤ effort') : t.Within degree' effort' :=
  ⟨h.tidy, h.degree_le.trans hdegree, h.effort_le.trans (Nat.add_le_add_left heffort 1)⟩

theorem Within.exact {degree effort : Nat} {t : Term} (h : t.Within degree effort) :
    t.Within (t.degree 1) (t.effort - 1) :=
  ⟨h.tidy, le_rfl, by have := t.effort_pos; omega⟩

theorem zero_normal : zero.Normal := by
  rw [normal_iff]
  exact ⟨⟨0, rfl⟩, ⟨1, rfl⟩, .inl rfl, .inl rfl⟩

theorem zero_inLowestTerms : (Tree.term zero).InLowestTerms := by
  refine Tree.allTerms_term.mpr ⟨⟨0, 1, rfl, rfl, Int.one_pos, Int.gcd_one_right 0⟩, fun f hf => ?_⟩
  obtain rfl : f = .placeholder := by simpa [zero, ofValue, side] using hf
  exact Factor.allTerms_placeholder

theorem degree_ofValue (v : Value) (least : Nat) : (ofValue v).degree least = 0 := by
  rw [degree_eq]
  simp [ofValue, Factor.totalDegree_side, Factor.totalDegree]

theorem effort_ofValue (v : Value) : (ofValue v).effort = 2 := rfl

theorem zero_within {degree effort : Nat} (h : 1 ≤ effort) : zero.Within degree effort :=
  ⟨⟨zero_normal, zero_inLowestTerms⟩, (degree_ofValue _ _).trans_le (Nat.zero_le _),
    (effort_ofValue _).trans_le (Nat.add_le_add_left h 1)⟩

end Term

namespace Product

variable {p : Product} {effort : Nat}

theorem exists_balance_eq (hp : p.Gathered effort)
    (hdisjoint : (p.top.map (·.base)).Disjoint (p.bottom.map (·.base))) :
    ∃ u : Tree → Int, (∀ b, (u b).natAbs ≤ b.degree 1) ∧ p.balance u = p.asTerm.degree 1 := by
  have hbases : (p.bottom.map (Factor.raisedBy (-1))).map (·.base) = p.bottom.map (·.base) := by
    simp [Factor.raisedBy]
  have hnodup : ((p.top ++ p.bottom.map (Factor.raisedBy (-1))).map (·.base)).Nodup := by
    rw [List.map_append, hbases]
    exact List.nodup_append.mpr ⟨hp.top.nodup, hp.bottom.nodup,
      fun a ha b hb hab => hdisjoint ha (hab ▸ hb)⟩
  obtain ⟨u, hu, htotal⟩ := Factor.exists_weight_eq_totalDegree hnodup
  refine ⟨u, hu, ?_⟩
  rw [Factor.weight_append, Factor.weight_raised, Factor.totalDegree_append,
    Factor.totalDegree_raised] at htotal
  rw [balance, Term.degree_eq]
  simp only [asTerm]
  simp only [Int.natAbs_neg, Int.natAbs_one, Nat.one_mul] at htotal
  omega

/-- The term of a product that is not zero has the factors that folding keeps. -/
theorem toTerm_eq {m d n l : Rat} (hm : p.multiplier = .exact m) (hm0 : m ≠ 0)
    (hd : p.divisor = .exact d)
    (hratio : Value.reduceRatio (.exact m) (.exact d) = .ok (.exact n, .exact l))
    (htop : ∀ f ∈ p.top, f.IsFoldable) (hbottom : ∀ f ∈ p.bottom, f.IsFoldable) :
    p.toTerm = .ok ⟨.exact n, .exact l, Factor.kept p.top, Factor.kept p.bottom⟩ := by
  simp [toTerm, hm, hm0, hd, hratio, Term.of_ok n l htop hbottom]

theorem toTerm_ok {q : Rat} {degree : Nat} (hp : p.Gathered effort) (heffort : 1 ≤ effort)
    (hq : p.asTerm.meaning? I = some q)
    (hdisjoint : (p.top.map (·.base)).Disjoint (p.bottom.map (·.base)))
    (hdegree : ∀ u, (∀ b, (u b).natAbs ≤ b.degree 1) → p.balance u ≤ degree) :
    ∃ t, p.toTerm = .ok t ∧ t.meaning? I = some q ∧ t.Within degree effort := by
  obtain ⟨m, d, a, k, hm, hd, ha, hk, hd0, hk0, rfl⟩ := asTerm_meaning?_eq_some.mp hq
  by_cases hm0 : m = 0
  · subst hm0
    refine ⟨.zero, by simp [toTerm, hm], ?_, Term.zero_within heffort⟩
    rw [zero_mul, zero_div]
    exact Term.meaning?_ofValue 0
  · obtain ⟨n, l, hratio, hl, hcoprime, hquot⟩ := Value.reduceRatio_exact m hd0
    have htop : ∀ f ∈ p.top, f.IsFoldable := fun f hf => (hp.top.isAtomPower f hf).isFoldable
    have hbottom : ∀ f ∈ p.bottom, f.IsFoldable :=
      fun f hf => (hp.bottom.isAtomPower f hf).isFoldable
    have hl0 : (l : Rat) ≠ 0 := by exact_mod_cast hl.ne'
    refine ⟨_, toTerm_eq hm hm0 hd hratio htop hbottom, ?_, ⟨?_, ?_⟩, ?_, ?_⟩
    · refine Term.meaning?_eq_some.mpr ⟨n, l, a, k, rfl, rfl, Factor.product?_kept htop ha,
        Factor.product?_kept hbottom hk, hl0, hk0, ?_⟩
      rw [← div_mul_div_comm, ← hquot, div_mul_div_comm]
    · exact Term.normal_iff.mpr ⟨⟨n, rfl⟩, ⟨l, rfl⟩, Factor.normalSide_kept htop,
        Factor.normalSide_kept hbottom⟩
    · exact Tree.allTerms_term.mpr ⟨⟨n, l, rfl, rfl, hl, hcoprime⟩,
        List.forall_mem_append.mpr ⟨hp.top.kept_inLowestTerms, hp.bottom.kept_inLowestTerms⟩⟩
    · obtain ⟨u, hu, hbalance⟩ := exists_balance_eq hp hdisjoint
      have hle := hdegree u hu
      rw [hbalance, Term.degree_eq] at hle
      rw [Term.degree_eq, Factor.totalDegree_kept htop, Factor.totalDegree_kept hbottom]
      exact_mod_cast hle
    · refine Term.effort_le_iff.mpr ⟨heffort, fun f hf => ?_⟩
      rcases List.mem_append.mp hf with hf | hf
      · rcases Factor.mem_kept hf with hf | rfl
        · exact (hp.top.isAtomPower f hf).2.2.1
        · exact heffort
      · rcases Factor.mem_kept hf with hf | rfl
        · exact (hp.bottom.isAtomPower f hf).2.2.1
        · exact heffort

end Product

/-- Weights that the degrees of all fitting trees with a meaning bound. -/
def IsBounded (I : Interpretation) (width limit : Nat) (w : Tree → Int) : Prop :=
  ∀ {least : Nat} {b : Tree} {x : Rat}, b.Fits least width → b.effort ≤ limit →
    b.meaning? I = some x → (w b).natAbs ≤ b.degree least

theorem IsBounded.one {width limit : Nat} {w : Tree → Int} (hw : IsBounded I width limit w)
    (hlimit : 1 ≤ limit) : w .one = 0 :=
  Int.natAbs_eq_zero.mp (Nat.le_zero.mp
    (hw (Tree.fits_number _) hlimit (Tree.meaning?_number 1) : _ ≤ Tree.degree 0 .one))

theorem IsBounded.weight_le {width limit least : Nat} {w : Tree → Int} {t : Term} {q : Rat}
    (hw : IsBounded I width limit w) (hfits : (Tree.term t).Fits least width)
    (heffort : t.effort ≤ 1 + limit) (hq : t.meaning? I = some q) :
    Factor.weight w t.top - Factor.weight w t.bottom ≤ t.degree least := by
  obtain ⟨-, hbases⟩ := Term.effort_le_iff.mp heffort
  have hbound : ∀ f ∈ t.top ++ t.bottom, (w f.base).natAbs ≤ f.base.degree least := by
    intro f hf
    obtain ⟨x, hx⟩ := Term.exists_base_meaning hq f hf
    exact hw (hfits.base f hf) (hbases f hf) hx
  have htop : (Factor.weight w t.top).natAbs ≤ Factor.totalDegree least t.top :=
    Factor.natAbs_weight_le fun f hf => hbound f (List.mem_append_left _ hf)
  have hbottom : (Factor.weight w t.bottom).natAbs ≤ Factor.totalDegree least t.bottom :=
    Factor.natAbs_weight_le fun f hf => hbound f (List.mem_append_right _ hf)
  rw [Term.degree_eq]
  omega

namespace Term

variable {canonical : Tree → Except Fault Tree} {width limit effort steps degree : Nat} {t : Term}
  {q : Rat}

/-- The factors of a term are gathered and cancelled to a product of the same meaning, in which no
base stands on both sides. -/
theorem gathers_ok (hcanonical : Canonizes I width limit canonical) (heffort : effort ≤ limit)
    (hq : t.meaning? I = some q) (ht : t.effort ≤ 1 + effort)
    (hsteps : Product.Affords width steps (Product.items t.top t.bottom true))
    (hdegree : ∀ w, IsBounded I width limit w →
      Factor.weight w t.top - Factor.weight w t.bottom ≤ degree) :
    ∃ p p', Product.run canonical steps ⟨t.multiplier, t.divisor, [], []⟩
        (Product.items t.top t.bottom true) = .ok p ∧ p.cancel canonical = .ok p' ∧
      Product.CancelsTo I p p' ∧ p'.Gathered effort ∧ p'.asTerm.meaning? I = some q ∧
      (p'.top.map (·.base)).Disjoint (p'.bottom.map (·.base)) ∧
      ∀ u, (∀ b, (u b).natAbs ≤ b.degree 1) → p'.balance u ≤ degree := by
  obtain ⟨m, d, a, k, hm, hd, ha, hk, hd0, hk0, rfl⟩ := meaning?_eq_some.mp hq
  obtain ⟨-, hbases⟩ := effort_le_iff.mp ht
  have hstart : Product.Gathered effort ⟨t.multiplier, t.divisor, [], []⟩ :=
    ⟨Factor.gathered_nil, Factor.gathered_nil⟩
  have hcoefficients : (Product.asTerm ⟨t.multiplier, t.divisor, [], []⟩).meaning? I =
      some (m / d) :=
    Product.asTerm_meaning?_eq_some.mpr ⟨m, d, 1, 1, hm, hd, rfl, rfl, hd0, one_ne_zero, by simp⟩
  have hitems : Product.itemsMeaning? I (Product.items t.top t.bottom true) = some (a / k) := by
    rw [Product.itemsMeaning?_eq_some, Product.tops_items, Product.bottoms_items]
    exact ⟨a, k, ha, hk, hk0, rfl⟩
  have hefforts : ∀ i ∈ Product.items t.top t.bottom true, i.factor.base.effort ≤ effort :=
    Product.forall_mem_items (R := fun f => f.base.effort ≤ effort) hbases
  obtain ⟨p, hp, hgathered, hmeaning, hbalance⟩ := Product.run_ok hcanonical heffort steps hstart
    hcoefficients hitems hefforts hsteps
  obtain ⟨p', hp', hcancels, hgathered', hdisjoint⟩ :=
    Product.cancel_ok hcanonical.number hgathered hmeaning
  refine ⟨p, p', hp, hp', hcancels, hgathered', ?_, hdisjoint, fun u hu => ?_⟩
  · rw [hcancels.meaning, hmeaning, div_mul_div_comm]
  · rw [hcancels.balance u, hbalance u]
    have hle := hdegree (·.tally canonical u) (Tree.natAbs_tally_le hcanonical hu)
    simpa [Product.balance, Product.itemsBalance, Factor.weight] using hle

theorem simplifyBy_ok (hcanonical : Canonizes I width limit canonical) (heffort : effort ≤ limit)
    (hq : t.meaning? I = some q) (ht : t.effort ≤ 1 + effort)
    (hsteps : Product.Affords width steps (Product.items t.top t.bottom true))
    (hdegree : ∀ w, IsBounded I width limit w →
      Factor.weight w t.top - Factor.weight w t.bottom ≤ degree) :
    ∃ s, t.simplifyBy steps canonical = .ok s ∧ s.meaning? I = some q ∧ s.Within degree effort := by
  have hpos := (effort_le_iff.mp ht).1
  obtain ⟨m, d, a, k, hm, -, -, -, -, -, hvalue⟩ := meaning?_eq_some.mp hq
  by_cases hm0 : m = 0
  · subst hm0
    refine ⟨.zero, by simp [simplifyBy, hm], ?_, zero_within hpos⟩
    rw [hvalue, zero_mul, zero_div]
    exact meaning?_ofValue 0
  · obtain ⟨p, p', hp, hp', -, hgathered, hmeaning, hdisjoint, hbalance⟩ :=
      gathers_ok hcanonical heffort hq ht hsteps hdegree
    obtain ⟨s, hs, hsq, hwithin⟩ := Product.toTerm_ok hgathered hpos hmeaning hdisjoint hbalance
    have hnonzero : t.multiplier.isZero = false := by simp [hm, hm0]
    exact ⟨s, by simp [simplifyBy, hnonzero, hp, hp', hs], hsq, hwithin⟩

theorem affords_items {least length : Nat}
    (hfits : ∀ f ∈ t.top ++ t.bottom, (Tree.power f).Fits least width ∧ f.base.effort ≤ effort)
    (hlength : t.top.length + t.bottom.length ≤ length) (hdegree : t.degree least ≤ degree) :
    Product.Affords width (length + 3 * effort * degree) (Product.items t.top t.bottom true) := by
  have hitems : ∀ i ∈ Product.items t.top t.bottom true,
      (Tree.power i.factor).Fits least width ∧ i.factor.base.effort ≤ effort :=
    Product.forall_mem_items
      (R := fun f => (Tree.power f).Fits least width ∧ f.base.effort ≤ effort) hfits
  have htotal : Factor.totalDegree least
      ((Product.items t.top t.bottom true).map (·.factor)) = t.degree least := by
    simp [Product.items, Function.comp_def, Factor.totalDegree_append, degree_eq]
  refine Product.affords_mono ?_ (Product.affords_of_fits hitems)
  rw [htotal]
  refine Nat.add_le_add ?_ (Nat.mul_le_mul_left _ hdegree)
  simpa [Product.items] using hlength

theorem affords_of_fits {least : Nat} (ht : t.effort ≤ 1 + effort)
    (hfits : (Tree.term t).Fits least width)
    (hsteps : width + 3 * effort * Value.maxExactExponent ≤ steps) :
    Product.Affords width steps (Product.items t.top t.bottom true) := by
  obtain ⟨hdegree, hwidth, hfactors⟩ := Tree.fits_term.mp hfits
  obtain ⟨-, hbases⟩ := effort_le_iff.mp ht
  exact Product.affords_mono hsteps (affords_items
    (fun f hf => ⟨hfactors f hf, hbases f hf⟩) hwidth hdegree)

end Term

theorem Term.meaning?_wrapped (base : Tree) :
    (⟨.one, .one, [⟨base, .one⟩], [.placeholder]⟩ : Term).meaning? I = base.meaning? I := by
  have hplaceholder : Factor.product? I [.placeholder] = some 1 := Factor.product?_side []
  have hbase : Factor.product? I [⟨base, .one⟩] = base.meaning? I := by
    rw [Factor.product?_singleton]
    cases h : base.meaning? I <;> simp [Factor.meaning?, h, ← Tree.whole_one]
  cases h : base.meaning? I <;>
    simp [Term.meaning?, Value.one, hbase, hplaceholder, h, quotient?]

/-- A normal term is reduced to a normal tree of the same meaning that is no larger, and smaller if
it is a sum. -/
theorem Term.Normal.reduce_ok {t : Term} {q : Rat} (h : t.Normal) (hq : t.meaning? I = some q) :
    ∃ c, t.reduce = .ok c ∧ c.meaning? I = some q ∧ c.Normal ∧ c.degree 1 ≤ t.degree 1 ∧
      c.effort ≤ t.effort ∧ ∀ ts, c = .sum ts → c.effort < t.effort := by
  rcases h.reduce_cases with hself | ⟨m, rfl, hnumber⟩ | ⟨base, hatom, hbase, rfl, hreduce⟩
  · exact ⟨.term t, hself, hq, h, le_rfl, le_rfl, by simp⟩
  · have hm : q = m := Option.some.inj (hq.symm.trans (meaning?_ofValue m))
    exact ⟨.number (.exact m), hnumber, by rw [hm]; rfl, rfl, Nat.zero_le _,
      by simp [Tree.effort, Term.effort], by simp⟩
  · refine ⟨base, hreduce, (meaning?_wrapped base).symm.trans hq, hbase, ?_, ?_, ?_⟩
    · rw [Term.degree_eq]
      simp [Factor.totalDegree, Factor.degree, ← Tree.whole_one]
    · simp only [effort_eq, Factor.highestEffort]
      omega
    · rintro ts -
      simp only [effort_eq, Factor.highestEffort]
      omega

end SymbolicAlgebra
