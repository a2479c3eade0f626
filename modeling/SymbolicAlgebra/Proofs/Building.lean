import SymbolicAlgebra.Proofs.Collecting
import SymbolicAlgebra.Proofs.Likeness
import SymbolicAlgebra.Proofs.Predicate
import SymbolicAlgebra.Tree.Arithmetic

/-!
# Building trees keeps their meaning

Whenever a tree is unwrapped, folded into a term or put into a sum, the outcome means what the parts
say it should. The statements are about outcomes only: an operation may also fail, where a power
that it computes lies beyond the doubles.
-/

namespace SymbolicAlgebra

open Outcome

variable {I : Interpretation}

theorem Term.denominatorIsOne_sound {t : Term} {d k : Rat} (h : t.denominatorIsOne = .ok true)
    (hd : t.divisor = .exact d) (hk : Factor.product? I t.bottom = some k) : d = 1 ∧ k = 1 := by
  unfold denominatorIsOne at h
  split at h
  · next hone => exact ⟨by simpa [hd] using hone, Factor.allOne_sound t.bottom h hk⟩
  · simp at h

mutual

theorem Tree.reduce_meaning : (t : Tree) → {c : Tree} → {q : Rat} → t.reduce = .ok c →
    t.meaning? I = some q → c.meaning? I = some q
  | .power f, c, q, h, hq => f.reduce_meaning h hq
  | .term t, c, q, h, hq => t.reduce_meaning h hq
  | .sum [t], c, q, h, hq => t.reduce_meaning h (by rwa [Tree.meaning?_sum_singleton] at hq)
  | .number _, c, q, h, hq | .constant _, c, q, h, hq | .variable _, c, q, h, hq
  | .sum [], c, q, h, hq | .sum (_ :: _ :: _), c, q, h, hq | .call _ _, c, q, h, hq => by
    obtain rfl := Except.ok.inj h
    exact hq

theorem Factor.reduce_meaning : (f : Factor) → {c : Tree} → {q : Rat} → f.reduce = .ok c →
    f.meaning? I = some q → c.meaning? I = some q
  | ⟨base, exponent⟩, c, q, h, hq => by
    obtain ⟨b, n, hb, he, hn, rfl⟩ := Factor.meaning?_eq_some.mp hq
    obtain ⟨one, hone, h⟩ := bind_eq_ok.mp h
    cases one with
    | false =>
      obtain rfl := Except.ok.inj h
      exact hq
    | true =>
      obtain rfl : n = 1 := by exact_mod_cast exponent.isOne_sound hone he
      exact base.reduce_meaning h (by rwa [zpow_one])

theorem Term.reduce_meaning : (t : Term) → {c : Tree} → {q : Rat} → t.reduce = .ok c →
    t.meaning? I = some q → c.meaning? I = some q
  | ⟨multiplier, divisor, [⟨base, exponent⟩], bottom⟩, c, q, h, hq => by
    obtain ⟨m, d, n, k, hm, hd, hn, hk, -, -, rfl⟩ := Term.meaning?_eq_some.mp hq
    have hfactor : (⟨base, exponent⟩ : Factor).meaning? I = some n :=
      (Factor.product?_singleton _).symm.trans hn
    obtain ⟨whole, hwhole, h⟩ := bind_eq_ok.mp h
    cases whole with
    | false =>
      obtain rfl := Except.ok.inj h
      exact hq
    | true =>
      obtain ⟨rfl, rfl⟩ := Term.denominatorIsOne_sound hwhole hd hk
      obtain ⟨one, hone, h⟩ := bind_eq_ok.mp h
      cases one with
      | true =>
        obtain rfl := Except.ok.inj h
        obtain rfl := Factor.isOne_sound _ hone hfactor
        rw [mul_one, mul_one, div_one]
        exact Value.rational?_eq_some.mpr hm
      | false =>
        simp only [Bool.false_eq_true, if_false] at h
        split at h
        · next hone' =>
          obtain rfl : m = 1 := by simpa [show multiplier = .exact m from hm] using hone'
          obtain ⟨first, hfirst, h⟩ := bind_eq_ok.mp h
          cases first with
          | true =>
            obtain ⟨b, l, hb, hl, -, rfl⟩ := Factor.meaning?_eq_some.mp hfactor
            obtain rfl : l = 1 := by exact_mod_cast exponent.isOne_sound hfirst hl
            exact base.reduce_meaning h (by simpa using hb)
          | false =>
            obtain rfl := Except.ok.inj h
            exact hq
        · obtain rfl := Except.ok.inj h
          exact hq
  | ⟨_, _, [], _⟩, c, q, h, hq | ⟨_, _, _ :: _ :: _, _⟩, c, q, h, hq => by
    rw [Term.reduce] at h
    · obtain rfl := Except.ok.inj h
      exact hq
    · simp

end

theorem Term.scale_meaning {t u : Term} {v : Value} {q c : Rat} (h : t.scale v = .ok u)
    (hq : t.meaning? I = some q) (hv : v = .exact c) : u.meaning? I = some (q * c) := by
  obtain ⟨m, d, n, k, hm, hd, hn, hk, hd0, hk0, rfl⟩ := meaning?_eq_some.mp hq
  subst hv
  obtain rfl : { t with multiplier := .exact (m * c) } = u := by
    simpa [scale, hm, Value.mul_exact] using h
  exact meaning?_eq_some.mpr ⟨m * c, d, n, k, rfl, hd, hn, hk, hd0, hk0, by ring⟩

theorem Term.meaning?_ofSide {c x : Rat} {fs : List Factor} (hx : Factor.product? I fs = some x) :
    (⟨.exact c, .one, side fs, side []⟩ : Term).meaning? I = some (c * x) := by
  refine meaning?_eq_some.mpr ⟨c, 1, x, 1, rfl, rfl, (Factor.product?_side fs).trans hx,
    Factor.product?_side [], one_ne_zero, one_ne_zero, by simp⟩

theorem Factor.meaning?_first {b : Tree} {q : Rat} (h : b.meaning? I = some q) :
    (⟨b, .one⟩ : Factor).meaning? I = some q :=
  Factor.meaning?_eq_some.mpr ⟨q, 1, h, rfl, .inr Int.one_nonneg, (zpow_one q).symm⟩

theorem Term.opposite_meaning {t : Term} {c : Tree} {q : Rat}
    (h : (do (← t.scale .negativeOne).reduce : Except Fault Tree) = .ok c)
    (hq : t.meaning? I = some q) : c.meaning? I = some (-q) := by
  obtain ⟨u, hu, hc⟩ := bind_eq_ok.mp h
  rw [← mul_neg_one]
  exact u.reduce_meaning hc (scale_meaning hu hq rfl)

/-- The base that stays where the sign of a negative one is pulled out. -/
def Tree.opposite : Tree → Except Fault Tree
  | .number v => .number <$> v.mul .negativeOne
  | .term t => do (← t.scale .negativeOne).reduce
  | .power ⟨b, e⟩ => do
    let (k, kept) ← b.absorb e .one
    (← (⟨k, .one, Term.side kept.toList, Term.side []⟩ : Term).scale .negativeOne).reduce
  | t => pure t

/-- Whether the sign of a base is pulled out of a power of it. -/
def Factor.pullsSign (f : Factor) : Except Fault Bool := do
  if ← f.exponent.isOne then f.base.isNegative else return false

theorem Tree.absorb_eq (base exponent : Tree) (c : Value) :
    base.absorb exponent c = do
      if ← exponent.isZero then return (c, none)
      match ← Factor.value? ⟨base, exponent⟩ with
      | some v => return (← c.mul v, none)
      | none =>
        if ← Factor.pullsSign ⟨base, exponent⟩ then
          let o ← base.opposite
          return (← c.mul .negativeOne, some ⟨o, .one⟩)
        else return (c, some ⟨base, exponent⟩) := by
  rw [Tree.absorb.eq_def, Factor.pullsSign]
  refine bind_congr fun zero => ?_
  split
  · rfl
  refine bind_congr fun value? => ?_
  cases value? with
  | some v => rfl
  | none =>
    simp only [bind_assoc]
    refine bind_congr fun one => ?_
    cases base with
    | power f =>
      obtain ⟨b, e⟩ := f
      cases one <;> simp [Tree.opposite]
    | _ => cases one <;> simp [Tree.opposite]

/-- The tree that takes the place of a negative base when its sign is pulled out. -/
def Tree.IsOpposite (o : Tree) : Tree → Prop
  | .number v => ∃ w, v.mul .negativeOne = .ok w ∧ o = .number w
  | .term t => (do (← t.scale .negativeOne).reduce : Except Fault Tree) = .ok o
  | .power ⟨b, e⟩ => ∃ k kept, b.absorb e .one = .ok (k, kept) ∧
      (do (← (⟨k, .one, Term.side kept.toList, Term.side []⟩ : Term).scale .negativeOne).reduce :
        Except Fault Tree) = .ok o
  | _ => False

theorem Tree.opposite_eq_ok {base o : Tree} (h : base.isNegative = .ok true) :
    base.opposite = .ok o ↔ o.IsOpposite base := by
  cases base with
  | number v => exact map_eq_ok.trans (exists_congr fun w => and_congr_right' eq_comm)
  | power f =>
    obtain ⟨b, e⟩ := f
    constructor
    · intro ho
      obtain ⟨⟨k, kept⟩, hkept, ho⟩ := bind_eq_ok.mp ho
      exact ⟨k, kept, hkept, ho⟩
    · rintro ⟨k, kept, hkept, ho⟩
      exact bind_eq_ok.mpr ⟨⟨k, kept⟩, hkept, ho⟩
  | term t => exact Iff.rfl
  | _ => simp [isNegative] at h

/-- The power is neither a zeroth one nor has it a value, so that folding keeps it. -/
structure Factor.IsSymbolic (f : Factor) : Prop where
  zero : f.exponent.isZero = .ok false
  value : f.value? = .ok none

/-- Folding a power drops it, multiplies its value into the coefficient, keeps it, or keeps the
opposite of its base with the sign in the coefficient. -/
theorem Tree.absorb_cases {base exponent : Tree} {c v : Value} {kept : Option Factor}
    (h : base.absorb exponent c = .ok (v, kept)) :
    (exponent.isZero = .ok true ∧ v = c ∧ kept = none) ∨
    (∃ w, (⟨base, exponent⟩ : Factor).value? = .ok (some w) ∧ c.mul w = .ok v ∧ kept = none) ∨
    (v = c ∧ kept = some ⟨base, exponent⟩ ∧ Factor.IsSymbolic ⟨base, exponent⟩ ∧
      (exponent.isOne = .ok false ∨ exponent.isOne = .ok true ∧ base.isNegative = .ok false)) ∨
    (exponent.isOne = .ok true ∧ c.mul .negativeOne = .ok v ∧
      ∃ o, o.IsOpposite base ∧ kept = some ⟨o, .one⟩ ∧ Factor.IsSymbolic ⟨base, exponent⟩ ∧
        base.isNegative = .ok true) := by
  rw [Tree.absorb_eq] at h
  obtain ⟨zero, hzero, h⟩ := bind_eq_ok.mp h
  cases zero with
  | true =>
    obtain ⟨rfl, rfl⟩ : c = v ∧ none = kept := by simpa using h
    exact .inl ⟨hzero, rfl, rfl⟩
  | false =>
    obtain ⟨value?, hvalue, h⟩ := bind_eq_ok.mp h
    cases value? with
    | some w =>
      obtain ⟨v', hv', h⟩ := bind_eq_ok.mp h
      obtain ⟨rfl, rfl⟩ : v' = v ∧ none = kept := by simpa using h
      exact .inr (.inl ⟨w, hvalue, hv', rfl⟩)
    | none =>
      right; right
      have hsymbolic : Factor.IsSymbolic ⟨base, exponent⟩ := ⟨hzero, hvalue⟩
      obtain ⟨pulls, hpulls, h⟩ := bind_eq_ok.mp h
      obtain ⟨one, hone, hsign⟩ := bind_eq_ok.mp hpulls
      cases pulls with
      | false =>
        obtain ⟨rfl, rfl⟩ : c = v ∧ some ⟨base, exponent⟩ = kept := by simpa using h
        refine .inl ⟨rfl, rfl, hsymbolic, ?_⟩
        cases one with
        | false => exact .inl hone
        | true => exact .inr ⟨hone, hsign⟩
      | true =>
        obtain ⟨o, ho, h⟩ := bind_eq_ok.mp h
        obtain ⟨v', hv', h⟩ := bind_eq_ok.mp h
        obtain ⟨rfl, rfl⟩ : v' = v ∧ some ⟨o, .one⟩ = kept := by simpa using h
        cases one with
        | false => cases hsign
        | true =>
          exact .inr ⟨hone, hv', o, (Tree.opposite_eq_ok hsign).mp ho, rfl, hsymbolic, hsign⟩

theorem Tree.absorb_meaning : (base : Tree) → {exponent : Tree} → {c q : Rat} → {v : Value} →
    {kept : Option Factor} → base.absorb exponent (.exact c) = .ok (v, kept) →
    (⟨base, exponent⟩ : Factor).meaning? I = some q →
    ∃ d x : Rat, v = .exact d ∧ Factor.product? I kept.toList = some x ∧ d * x = c * q := by
  intro base exponent c q v kept h hq
  obtain ⟨b, n, hb, hn, -, hbn⟩ := Factor.meaning?_eq_some.mp hq
  rcases absorb_cases h with ⟨hzero, rfl, rfl⟩ | ⟨w, hw, hv, rfl⟩ | ⟨rfl, rfl, -⟩ |
    ⟨hone, hv, o, ho, rfl, -⟩
  · have hn0 : n = 0 := by exact_mod_cast exponent.isZero_sound hzero hn
    exact ⟨c, 1, rfl, rfl, by rw [hbn, hn0, zpow_zero]⟩
  · obtain rfl := Factor.value?_sound _ hw hq
    exact ⟨c * q, 1, (Except.ok.inj hv).symm, rfl, mul_one _⟩
  · exact ⟨c, q, rfl, (Factor.product?_singleton _).trans hq, rfl⟩
  · have hn1 : n = 1 := by exact_mod_cast exponent.isOne_sound hone hn
    have hopposite : o.meaning? I = some (-b) := by
      cases base with
      | number w =>
        obtain rfl := Tree.meaning?_number_eq_some.mp hb
        obtain ⟨w', hw', rfl⟩ := ho
        obtain rfl : Value.exact (b * -1) = w' := Except.ok.inj hw'
        simp
      | power f =>
        obtain ⟨b', e'⟩ := f
        obtain ⟨k, kept, hkept, ho⟩ := ho
        obtain ⟨d, x, rfl, hx, hd⟩ := b'.absorb_meaning hkept hb
        refine Term.opposite_meaning ho ((Term.meaning?_ofSide hx).trans ?_)
        rw [hd, one_mul]
      | term t => exact Term.opposite_meaning ho hb
      | _ => exact ho.elim
    refine ⟨c * -1, -b, (Except.ok.inj hv).symm, ?_, by rw [hbn, hn1, zpow_one]; ring⟩
    exact (Factor.product?_singleton _).trans (Factor.meaning?_first hopposite)

namespace Term

theorem collect_meaning {c q : Rat} {v : Value} {fs kept : List Factor}
    (h : collect (.exact c) fs = .ok (v, kept)) (hq : Factor.product? I fs = some q) :
    ∃ d x : Rat, v = .exact d ∧ Factor.product? I kept = some x ∧ d * x = c * q := by
  induction fs generalizing c q kept with
  | nil =>
    obtain ⟨rfl, rfl⟩ := Prod.mk.inj (Except.ok.inj h)
    exact ⟨c, q, rfl, hq, rfl⟩
  | cons f fs ih =>
    obtain ⟨base, exponent⟩ := f
    obtain ⟨w, stays, rest, hw, hrest, rfl⟩ := collect_cons_eq_ok.mp h
    obtain ⟨a, b, ha, hb, rfl⟩ := Factor.product?_cons_eq_some.mp hq
    obtain ⟨d, y, rfl, hy, hdy⟩ := base.absorb_meaning hw ha
    obtain ⟨d', x, rfl, hx, hdx⟩ := ih hrest hb
    refine ⟨d', y * x, rfl, Factor.product?_append_eq_some.mpr ⟨y, x, hy, hx, rfl⟩, ?_⟩
    calc d' * (y * x) = d * y * b := by rw [mul_left_comm, hdx]; ring
      _ = c * (a * b) := by rw [hdy, mul_assoc]

/-- The parts of a term that is built from factors: numerator and denominator are kept. -/
theorem of_parts {m d n k : Rat} {top bottom : List Factor} {t : Term}
    (h : of (.exact m) (.exact d) top bottom = .ok t) (hn : Factor.product? I top = some n)
    (hk : Factor.product? I bottom = some k) :
    ∃ m' d' n' k' : Rat, t.multiplier = .exact m' ∧ t.divisor = .exact d' ∧
      Factor.product? I t.top = some n' ∧ Factor.product? I t.bottom = some k' ∧
      m' * n' = m * n ∧ d' * k' = d * k := by
  obtain ⟨⟨v, keptTop⟩, htop, h⟩ := bind_eq_ok.mp h
  obtain ⟨⟨w, keptBottom⟩, hbottom, h⟩ := bind_eq_ok.mp h
  obtain rfl := Except.ok.inj h
  obtain ⟨m', n', rfl, hn', hmn⟩ := collect_meaning htop hn
  obtain ⟨d', k', rfl, hk', hdk⟩ := collect_meaning hbottom hk
  exact ⟨m', d', n', k', rfl, rfl, (Factor.product?_side _).trans hn',
    (Factor.product?_side _).trans hk', hmn, hdk⟩

theorem of_meaning {m d n k : Rat} {top bottom : List Factor} {t : Term}
    (h : of (.exact m) (.exact d) top bottom = .ok t) (hn : Factor.product? I top = some n)
    (hk : Factor.product? I bottom = some k) (hd0 : d ≠ 0) (hk0 : k ≠ 0) :
    t.meaning? I = some (m * n / (d * k)) := by
  obtain ⟨m', d', n', k', hm', hd', hn', hk', hmn, hdk⟩ := of_parts h hn hk
  have hne : d' * k' ≠ 0 := by
    rw [hdk]
    exact mul_ne_zero hd0 hk0
  obtain ⟨hd0', hk0'⟩ := mul_ne_zero_iff.mp hne
  exact meaning?_eq_some.mpr ⟨m', d', n', k', hm', hd', hn', hk', hd0', hk0', by rw [hmn, hdk]⟩

theorem ofFactor_meaning {f : Factor} {t : Term} {q : Rat} (h : ofFactor f = .ok t)
    (hq : f.meaning? I = some q) : t.meaning? I = some q := by
  have hmeaning := of_meaning h ((Factor.product?_singleton f).trans hq) Factor.product?_nil
    one_ne_zero one_ne_zero
  simpa using hmeaning

end Term

theorem Tree.toFactor_meaning (t : Tree) : t.toFactor.meaning? I = t.meaning? I := by
  have hfirst : (⟨t, .one⟩ : Factor).meaning? I = t.meaning? I := by
    cases h : t.meaning? I with
    | none => simp [Factor.meaning?, h]
    | some q => exact Factor.meaning?_first h
  cases t with
  | power f => rfl
  | _ => exact hfirst

theorem Tree.toTerm_meaning {t : Tree} {u : Term} {q : Rat} (h : t.toTerm = .ok u)
    (hq : t.meaning? I = some q) : u.meaning? I = some q := by
  have hfactor : ∀ {s : Tree} {u : Term}, Term.ofFactor s.toFactor = .ok u →
      s.meaning? I = some q → u.meaning? I = some q :=
    fun h hq => Term.ofFactor_meaning h ((Tree.toFactor_meaning _).trans hq)
  cases t with
  | number v =>
    obtain rfl := Except.ok.inj h
    obtain rfl := Tree.meaning?_number_eq_some.mp hq
    exact Term.meaning?_ofValue q
  | term t =>
    obtain rfl := Except.ok.inj h
    exact hq
  | sum ts =>
    obtain ⟨c, hc, h⟩ := bind_eq_ok.mp h
    have hcq := Tree.reduce_meaning _ hc hq
    cases c with
    | number v =>
      obtain rfl := Except.ok.inj h
      obtain rfl := Tree.meaning?_number_eq_some.mp hcq
      exact Term.meaning?_ofValue q
    | term t =>
      obtain rfl := Except.ok.inj h
      exact hcq
    | _ => exact hfactor h hcq
  | _ => exact hfactor h hq

theorem Term.sorted_perm {ts ss : List Term} (h : sorted ts = .ok ss) : ss.Perm ts := by
  obtain ⟨ranked, hranked, hss⟩ := bind_eq_ok.mp h
  have hterms : ranked.map (·.2) = ts := by
    clear h hss
    induction ts generalizing ranked with
    | nil =>
      obtain rfl : [] = ranked := Except.ok.inj hranked
      rfl
    | cons t ts ih =>
      rw [List.mapM_cons] at hranked
      obtain ⟨r, hr, hranked⟩ := bind_eq_ok.mp hranked
      obtain ⟨rs, hrs, hranked⟩ := bind_eq_ok.mp hranked
      obtain ⟨x, -, hr⟩ := bind_eq_ok.mp hr
      obtain rfl := Except.ok.inj hr
      obtain rfl := Except.ok.inj hranked
      rw [List.map_cons, ih rs hrs]
  obtain rfl := Except.ok.inj hss
  exact ((perm_foldr_insertRanked ranked).map _).trans (List.Perm.of_eq hterms)

theorem Term.summed_meaning {ts ss : List Term} (h : summed ts = .ok ss) :
    total? I ss = total? I ts := by
  rw [total?_perm (sorted_perm h)]
  cases ts with
  | nil =>
    exact (Tree.meaning?_sum_singleton zero).trans (meaning?_ofValue 0)
  | cons t ts => rfl

theorem Tree.toTerms_meaning {ts : List Tree} {us : List Term} {qs : List Rat}
    (h : ts.mapM toTerm = .ok us) (hqs : meanings? I ts = some qs) :
    Term.total? I us = some qs.sum := by
  induction ts generalizing us qs with
  | nil =>
    obtain rfl := Except.ok.inj h
    obtain rfl := Option.some.inj hqs
    rfl
  | cons t ts ih =>
    obtain ⟨q, qs', hq, hqs', rfl⟩ := meanings?_cons_eq_some.mp hqs
    rw [List.mapM_cons] at h
    obtain ⟨u, hu, h⟩ := bind_eq_ok.mp h
    obtain ⟨us', hus', h⟩ := bind_eq_ok.mp h
    obtain rfl := Except.ok.inj h
    exact Term.total?_cons_eq_some.mpr
      ⟨q, qs'.sum, toTerm_meaning hu hq, ih hus' hqs', List.sum_cons⟩

theorem Tree.sumOf_meaning {ts : List Tree} {c : Tree} {qs : List Rat} (h : sumOf ts = .ok c)
    (hqs : meanings? I ts = some qs) : c.meaning? I = some qs.sum := by
  obtain ⟨us, hus, h⟩ := bind_eq_ok.mp h
  obtain ⟨ss, hss, h⟩ := bind_eq_ok.mp h
  obtain rfl := Except.ok.inj h
  exact (Term.summed_meaning hss).trans (toTerms_meaning hus hqs)

theorem Tree.summands_meaning {t : Tree} {ts : List Term} {q : Rat} (h : t.summands = .ok ts)
    (hq : t.meaning? I = some q) : Term.total? I ts = some q := by
  have hterm : ∀ {s : Tree}, (do return [← s.toTerm] : Except Fault (List Term)) = .ok ts →
      s.meaning? I = some q → Term.total? I ts = some q := by
    intro s h hq
    obtain ⟨u, hu, h⟩ := bind_eq_ok.mp h
    obtain rfl := Except.ok.inj h
    exact (Tree.meaning?_sum_singleton u).trans (Tree.toTerm_meaning hu hq)
  match t with
  | .sum [t] =>
    rw [Tree.meaning?_sum_singleton] at hq
    obtain ⟨zero, hzero, h⟩ := bind_eq_ok.mp h
    cases zero with
    | true =>
      obtain rfl := Except.ok.inj h
      rw [t.isZero_sound hzero hq]
      rfl
    | false =>
      obtain rfl := Except.ok.inj h
      exact (Tree.meaning?_sum_singleton t).trans hq
  | .sum [] | .sum (_ :: _ :: _) =>
    obtain rfl := Except.ok.inj h
    exact hq
  | .number _ | .constant _ | .variable _ | .power _ | .term _ | .call _ _ => exact hterm h hq

namespace Term

theorem withCommonDenominator_parts {s t u : Term} {m d n k e l : Rat}
    (h : s.withCommonDenominator t = .ok u) (hm : s.multiplier = .exact m)
    (hd : s.divisor = .exact d) (hn : Factor.product? I s.top = some n)
    (hk : Factor.product? I s.bottom = some k) (he : t.divisor = .exact e)
    (hl : Factor.product? I t.bottom = some l) :
    ∃ m' d' n' k' : Rat, u.multiplier = .exact m' ∧ u.divisor = .exact d' ∧
      Factor.product? I u.top = some n' ∧ Factor.product? I u.bottom = some k' ∧
      (s.sharesDenominator t = true ∧ m' * n' = m * n ∧ d' * k' = d * k ∨
        s.sharesDenominator t = false ∧ m' * n' = m * n * (e * l) ∧ d' * k' = d * k * (e * l)) := by
  unfold withCommonDenominator at h
  split at h
  · next hshares =>
    obtain rfl := Except.ok.inj h
    exact ⟨m, d, n, k, hm, hd, hn, hk, .inl ⟨hshares, rfl, rfl⟩⟩
  · next hshares =>
    obtain ⟨v, hv, h⟩ := bind_eq_ok.mp h
    obtain ⟨w, hw, h⟩ := bind_eq_ok.mp h
    obtain rfl : Value.exact (m * e) = v := by simpa [hm, he, Value.mul_exact] using hv
    obtain rfl : Value.exact (d * e) = w := by simpa [hd, he, Value.mul_exact] using hw
    obtain ⟨m', d', n', k', hm', hd', hn', hk', hmn, hdk⟩ := of_parts h
      (Factor.product?_append_eq_some.mpr ⟨n, l, hn, hl, rfl⟩)
      (Factor.product?_append_eq_some.mpr ⟨k, l, hk, hl, rfl⟩)
    refine ⟨m', d', n', k', hm', hd', hn', hk', .inr ⟨by simpa using hshares, ?_, ?_⟩⟩
    · rw [hmn]
      ring
    · rw [hdk]
      ring

theorem withCommonDenominator_sum {s t left right : Term} {a b : Rat}
    (hleft : s.withCommonDenominator t = .ok left) (hright : t.withCommonDenominator s = .ok right)
    (ha : s.meaning? I = some a) (hb : t.meaning? I = some b) :
    ∃ m d n k m' n' : Rat, left.multiplier = .exact m ∧ left.divisor = .exact d ∧
      Factor.product? I left.top = some n ∧ Factor.product? I left.bottom = some k ∧ d ≠ 0 ∧ k ≠ 0 ∧
      right.multiplier = .exact m' ∧ Factor.product? I right.top = some n' ∧
      right.meaning? I = some (m' * n' / (d * k)) ∧ a + b = (m * n + m' * n') / (d * k) := by
  have hshares := sharesDenominator_iff ha hb
  have hshares' := sharesDenominator_iff hb ha
  obtain ⟨m₁, d₁, n₁, k₁, hm₁, hd₁, hn₁, hk₁, hd₁0, hk₁0, rfl⟩ := meaning?_eq_some.mp ha
  obtain ⟨m₂, d₂, n₂, k₂, hm₂, hd₂, hn₂, hk₂, hd₂0, hk₂0, rfl⟩ := meaning?_eq_some.mp hb
  obtain ⟨m, d, n, k, hm, hd, hn, hk, hl⟩ :=
    withCommonDenominator_parts hleft hm₁ hd₁ hn₁ hk₁ hd₂ hk₂
  obtain ⟨m', d', n', k', hm', hd', hn', hk', hr⟩ :=
    withCommonDenominator_parts hright hm₂ hd₂ hn₂ hk₂ hd₁ hk₁
  have hcommon : d * k ≠ 0 ∧ d' * k' = d * k ∧
      m₁ * n₁ / (d₁ * k₁) + m₂ * n₂ / (d₂ * k₂) = (m * n + m' * n') / (d * k) := by
    have hiff : s.sharesDenominator t = true ↔ t.sharesDenominator s = true := by
      rw [hshares, hshares', eq_comm, List.perm_comm]
    rcases hl with ⟨hs, hmn, hdk⟩ | ⟨hs, hmn, hdk⟩
    · obtain ⟨hdivisor, hperm⟩ := hshares.mp hs
      have hd₁₂ : d₁ = d₂ := by simpa [hd₁, hd₂] using hdivisor
      have hk₁₂ : k₁ = k₂ :=
        Option.some.inj (hk₁.symm.trans ((Factor.product?_perm hperm).trans hk₂))
      rcases hr with ⟨-, hmn', hdk'⟩ | ⟨hs', -, -⟩
      · rw [hmn, hmn', hdk, hdk', ← hd₁₂, ← hk₁₂, add_div]
        exact ⟨mul_ne_zero hd₁0 hk₁0, rfl, rfl⟩
      · simp [hiff.mp hs] at hs'
    · rcases hr with ⟨hs', -, -⟩ | ⟨-, hmn', hdk'⟩
      · simp [hiff.mpr hs'] at hs
      · rw [hmn, hmn', hdk, hdk']
        refine ⟨?_, mul_comm _ _, ?_⟩
        · exact mul_ne_zero (mul_ne_zero hd₁0 hk₁0) (mul_ne_zero hd₂0 hk₂0)
        · field_simp
  obtain ⟨hne, hdenominator, hsum⟩ := hcommon
  obtain ⟨hd0, hk0⟩ := mul_ne_zero_iff.mp hne
  obtain ⟨hd0', hk0'⟩ := mul_ne_zero_iff.mp (hdenominator ▸ hne)
  exact ⟨m, d, n, k, m', n', hm, hd, hn, hk, hd0, hk0, hm', hn', meaning?_eq_some.mpr
    ⟨m', d', n', k', hm', hd', hn', hk', hd0', hk0', by rw [hdenominator]⟩, hsum⟩

theorem add_meaning {s t : Term} {c : Tree} {a b : Rat} (h : s.add t = .ok c)
    (ha : s.meaning? I = some a) (hb : t.meaning? I = some b) : c.meaning? I = some (a + b) := by
  obtain ⟨left, hleft, h⟩ := bind_eq_ok.mp h
  obtain ⟨right, hright, h⟩ := bind_eq_ok.mp h
  obtain ⟨m, d, n, k, m', n', hm, hd, hn, hk, hd0, hk0, hm', hn', hrightq, hsum⟩ :=
    withCommonDenominator_sum hleft hright ha hb
  rw [hsum]
  have hleftq : left.meaning? I = some (m * n / (d * k)) :=
    meaning?_eq_some.mpr ⟨m, d, n, k, hm, hd, hn, hk, hd0, hk0, rfl⟩
  split at h
  · next hlike =>
    obtain ⟨htops, hbottoms⟩ := (isLike_iff hleftq hrightq).mp hlike
    obtain rfl : n = n' := Option.some.inj (hn.symm.trans ((Factor.product?_perm htops).trans hn'))
    obtain ⟨v, hv, h⟩ := bind_eq_ok.mp h
    obtain rfl : Value.exact (m + m') = v := by simpa [hm, hm', Value.add_exact] using hv
    obtain rfl := Except.ok.inj h
    exact meaning?_eq_some.mpr ⟨m + m', d, n, k, rfl, hd, hn, hk, hd0, hk0, by ring⟩
  · obtain ⟨whole, hwhole, h⟩ := bind_eq_ok.mp h
    cases whole with
    | true =>
      obtain ⟨ss, hss, h⟩ := bind_eq_ok.mp h
      obtain rfl := Except.ok.inj h
      refine (summed_meaning hss).trans (total?_cons_eq_some.mpr
        ⟨_, _, hleftq, (Tree.meaning?_sum_singleton right).trans hrightq, by ring⟩)
    | false =>
      obtain ⟨u, hu, h⟩ := bind_eq_ok.mp h
      obtain ⟨v, hv, h⟩ := bind_eq_ok.mp h
      obtain ⟨numerators, hnumerators, h⟩ := bind_eq_ok.mp h
      obtain ⟨r, hr, h⟩ := bind_eq_ok.mp h
      obtain rfl := Except.ok.inj h
      rw [hm] at hu
      rw [hm'] at hv
      have huq := of_meaning hu hn Factor.product?_nil one_ne_zero one_ne_zero
      have hvq := of_meaning hv hn' Factor.product?_nil one_ne_zero one_ne_zero
      have hsumq : (Tree.sum numerators).meaning? I = some (m * n + m' * n') := by
        refine (summed_meaning hnumerators).trans (total?_cons_eq_some.mpr
          ⟨_, _, huq, (Tree.meaning?_sum_singleton v).trans hvq, by simp⟩)
      rw [hd] at hr
      have hrq := of_meaning hr ((Factor.product?_singleton _).trans (Factor.meaning?_first hsumq))
        hk hd0 hk0
      rw [one_mul] at hrq
      exact hrq

theorem mul_meaning {s t u : Term} {a b : Rat} (h : s.mul t = .ok u) (ha : s.meaning? I = some a)
    (hb : t.meaning? I = some b) : u.meaning? I = some (a * b) := by
  obtain ⟨m, d, n, k, hm, hd, hn, hk, hd0, hk0, rfl⟩ := meaning?_eq_some.mp ha
  obtain ⟨m', d', n', k', hm', hd', hn', hk', hd0', hk0', rfl⟩ := meaning?_eq_some.mp hb
  obtain ⟨v, hv, h⟩ := bind_eq_ok.mp h
  obtain ⟨w, hw, h⟩ := bind_eq_ok.mp h
  obtain rfl : Value.exact (m * m') = v := by simpa [hm, hm', Value.mul_exact] using hv
  obtain rfl : Value.exact (d * d') = w := by simpa [hd, hd', Value.mul_exact] using hw
  rw [of_meaning h (Factor.product?_append_eq_some.mpr ⟨n, n', hn, hn', rfl⟩)
    (Factor.product?_append_eq_some.mpr ⟨k, k', hk, hk', rfl⟩) (mul_ne_zero hd0 hd0')
    (mul_ne_zero hk0 hk0')]
  congr 1
  field_simp

theorem times_meaning {s u : Term} {t : Tree} {a b : Rat} (h : s.times t = .ok u)
    (ha : s.meaning? I = some a) (hb : t.meaning? I = some b) : u.meaning? I = some (a * b) := by
  have hfactor : of s.multiplier s.divisor (s.top ++ [t.toFactor]) s.bottom = .ok u →
      u.meaning? I = some (a * b) := by
    intro h
    obtain ⟨m, d, n, k, hm, hd, hn, hk, hd0, hk0, rfl⟩ := meaning?_eq_some.mp ha
    have htree : Factor.product? I [t.toFactor] = some b :=
      (Factor.product?_singleton _).trans ((Tree.toFactor_meaning t).trans hb)
    rw [hm, hd] at h
    rw [of_meaning h (Factor.product?_append_eq_some.mpr ⟨n, b, hn, htree, rfl⟩) hk hd0 hk0]
    congr 1
    ring
  cases t with
  | term t => exact mul_meaning h ha hb
  | number v =>
    obtain rfl := Tree.meaning?_number_eq_some.mp hb
    exact scale_meaning h ha rfl
  | _ => exact hfactor h

theorem fraction_meaning {s t : Tree} {u : Term} {a b : Rat} (h : fraction s t = .ok u)
    (ha : s.meaning? I = some a) (hb : t.meaning? I = some b) (hb0 : b ≠ 0) :
    u.meaning? I = some (a / b) := by
  have hs := (Factor.product?_singleton _).trans ((Tree.toFactor_meaning s).trans ha)
  have ht := (Factor.product?_singleton _).trans ((Tree.toFactor_meaning t).trans hb)
  have hu := of_meaning h hs ht one_ne_zero hb0
  rw [one_mul, one_mul] at hu
  exact hu

end Term

namespace Tree

variable {s t c : Tree} {a b : Rat}

theorem add_meaning (h : s.add t = .ok c) (ha : s.meaning? I = some a)
    (hb : t.meaning? I = some b) : c.meaning? I = some (a + b) := by
  have hmixed : (do
      if s.isSum || t.isSum then
        return sum (← Term.summed ((← s.summands) ++ (← t.summands)))
      else if s.isTerm || t.isTerm then sumOf [s, t]
      else (← s.toTerm).add (← t.toTerm) : Except Fault Tree) = .ok c →
      c.meaning? I = some (a + b) := by
    intro h
    split at h
    · obtain ⟨ss, hss, h⟩ := bind_eq_ok.mp h
      obtain ⟨ts, hts, h⟩ := bind_eq_ok.mp h
      obtain ⟨us, hus, h⟩ := bind_eq_ok.mp h
      obtain rfl := Except.ok.inj h
      exact (Term.summed_meaning hus).trans (Term.total?_append_eq_some.mpr
        ⟨a, b, summands_meaning hss ha, summands_meaning hts hb, rfl⟩)
    · split at h
      · have hst : meanings? I [s, t] = some [a, b] := by simp [meanings?, ha, hb]
        simpa using sumOf_meaning h hst
      · obtain ⟨u, hu, h⟩ := bind_eq_ok.mp h
        obtain ⟨v, hv, h⟩ := bind_eq_ok.mp h
        exact Term.add_meaning h (toTerm_meaning hu ha) (toTerm_meaning hv hb)
  unfold add at h
  split at h
  · next v w =>
    obtain rfl := meaning?_number_eq_some.mp ha
    obtain rfl := meaning?_number_eq_some.mp hb
    obtain rfl : number (.exact (a + b)) = c := Except.ok.inj h
    rfl
  · exact Term.add_meaning h ha hb
  · exact hmixed h

theorem multiply_meaning (h : s.multiply t = .ok c) (ha : s.meaning? I = some a)
    (hb : t.meaning? I = some b) : c.meaning? I = some (a * b) := by
  unfold multiply at h
  split at h
  · next v w =>
    obtain rfl := meaning?_number_eq_some.mp ha
    obtain rfl := meaning?_number_eq_some.mp hb
    obtain rfl : number (.exact (a * b)) = c := Except.ok.inj h
    rfl
  · obtain ⟨r, hr, h⟩ := bind_eq_ok.mp h
    have hrb := reduce_meaning _ hr hb
    split at h
    · obtain ⟨u, hu, h⟩ := bind_eq_ok.mp h
      obtain rfl := Except.ok.inj h
      rw [mul_comm]
      exact Term.times_meaning hu hrb ha
    · obtain ⟨u, hu, h⟩ := bind_eq_ok.mp h
      obtain rfl := Except.ok.inj h
      have hfactor : r.toFactor.meaning? I = some b := (toFactor_meaning r).trans hrb
      have hu' := Term.of_meaning hu (Factor.product?_cons_eq_some.mpr ⟨a, b,
        Factor.meaning?_first ha, (Factor.product?_singleton _).trans hfactor, rfl⟩)
        Factor.product?_nil one_ne_zero one_ne_zero
      simpa using hu'
  · obtain ⟨u, hu, h⟩ := bind_eq_ok.mp h
    obtain ⟨v, hv, h⟩ := bind_eq_ok.mp h
    obtain rfl := Except.ok.inj h
    exact Term.times_meaning hv (toTerm_meaning hu ha) hb

theorem negate_meaning (h : t.negate = .ok c) (hb : t.meaning? I = some b) :
    c.meaning? I = some (-b) := by
  rw [← mul_neg_one]
  exact multiply_meaning h hb rfl

theorem divide_meaning (h : s.divide t = .ok c) (ha : s.meaning? I = some a)
    (hb : t.meaning? I = some b) (hb0 : b ≠ 0) : c.meaning? I = some (a / b) := by
  obtain ⟨u, hu, h⟩ := bind_eq_ok.mp h
  rw [div_eq_mul_one_div]
  exact multiply_meaning h ha (Term.fraction_meaning hu rfl hb hb0)

theorem subtract_meaning (h : s.subtract t = .ok c) (ha : s.meaning? I = some a)
    (hb : t.meaning? I = some b) : c.meaning? I = some (a - b) := by
  obtain ⟨u, hu, h⟩ := bind_eq_ok.mp h
  rw [sub_eq_add_neg]
  exact add_meaning h ha (negate_meaning hu hb)

end Tree

end SymbolicAlgebra
