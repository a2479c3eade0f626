import SymbolicAlgebra.Proofs.Expansion
import SymbolicAlgebra.Proofs.PolynomialDistribution

/-!
# Expansion decides polynomial identity

A polynomial tree expands to a flat tree of the same polynomial, unless putting terms in order
overflows. A sum, a term or a number expands to a reduced polynomial, which is zero only as the
number zero. So two trees that stand for polynomials are equal as such exactly if their difference
expands to zero.
-/

namespace SymbolicAlgebra

open Outcome
open MvPolynomial (X C)

/-- What a polynomial tree expands to. -/
structure Tree.IsPolynomialExpansion (t : Tree) (bound : Nat) (e : Tree) : Prop where
  isFlat : e.IsFlat
  polynomial : e.polynomial = t.polynomial
  bulk_lt : 1 + 2 * e.bulk < bound
  isReduced : t.IsTotal → e.IsReducedPolynomial

theorem Tree.IsPolynomialExpansion.mono {t e : Tree} {bound bound' : Nat}
    (h : t.IsPolynomialExpansion bound e) (hbound : bound ≤ bound') :
    t.IsPolynomialExpansion bound' e :=
  ⟨h.isFlat, h.polynomial, h.bulk_lt.trans_le hbound, h.isReduced⟩

theorem Tree.fixesLeaves_canonicalWith {n : Nat} (hn : 1 ≤ n) : FixesLeaves (canonicalWith n) := by
  obtain ⟨n, rfl⟩ : ∃ m, n = m + 1 := ⟨n - 1, by omega⟩
  exact ⟨fun _ => rfl, fun _ => rfl⟩

theorem Tree.canonicalWith_whole_of_room {size n : Nat} (hn : 4 * room size ≤ n) (k : Int) :
    canonicalWith n (.whole k) = .ok (.whole k) := by
  have hpos := room_pos size
  exact (fixesLeaves_canonicalWith (by omega)).number _

variable {n : Nat}

section
variable {base b : Tree} {k : Nat} (hbase : base.expandWith n = .ok b)
  (hb : base.IsPolynomialExpansion (Tree.room base.size) b)
  (hn : 4 * Tree.room (base.size + 1) ≤ n)
include hbase hb hn

/-- A power of a sum is multiplied out. -/
theorem Factor.expandWith_of_sum {ts : List Term} (hc : b.reduce = .ok (.sum ts))
    (hk1 : (k : Int) ≠ 1) (hk : k ≤ maxExpandedPower) :
    Yields (Factor.expandWith n ⟨base, .whole k⟩)
      ((Tree.power ⟨base, .whole k⟩).IsPolynomialExpansion (Tree.room (base.size + 1))) := by
  have hroom := Tree.room_succ base.size
  have hpos := Tree.room_pos base.size
  have hbulk := hb.bulk_lt
  have hexponent := Tree.canonicalWith_whole_of_room hn k
  have hsame : (Tree.whole k).expandWith n = .ok (.whole k) := rfl
  have hnext : Factor.expandWith n ⟨base, .whole k⟩ =
      (do (Tree.sum (← Term.powerOut n ts k)).reduce) := by
    simp [Factor.expandWith, hbase, hsame, hexponent, hk1, hc, hk]
  obtain ⟨hflat, hcpolynomial, hcbulk⟩ := hb.isFlat.reduce hc
  have hadds : Term.AddsUpTo base.polynomial (Tree.room base.size) ts := by
    refine ⟨hflat.2, ?_, hcpolynomial.trans hb.polynomial, ?_⟩
    · rintro rfl
      exact absurd hflat.1 (by simp)
    · simp only [Tree.bulk] at hcbulk
      omega
  have hgrowth : 8 * Tree.room base.size ^ k ≤ Tree.room (base.size + 1) :=
    Tree.room_pow base.size (hk.trans (by decide))
  have hpositive : 1 ≤ Tree.room base.size ^ k := Nat.one_le_pow _ _ hpos
  rw [hnext]
  refine (hadds.powerOut (by omega)).bind fun us hus => hus.reduce.mono ?_
  rintro e ⟨heflat, hepolynomial, hebulk⟩
  refine ⟨heflat, ?_, by omega, fun h => h.elim⟩
  rw [hepolynomial, Tree.polynomial, Factor.polynomial_whole]

theorem Factor.expandWith_of_term {t : Term} (hc : b.reduce = .ok (.term t)) (hk1 : (k : Int) ≠ 1)
    (hk : k ≤ maxExpandedPower) :
    Yields (Factor.expandWith n ⟨base, .whole k⟩)
      ((Tree.power ⟨base, .whole k⟩).IsPolynomialExpansion (Tree.room (base.size + 1))) := by
  have hroom := Tree.room_succ base.size
  have hbulk := hb.bulk_lt
  have hexponent := Tree.canonicalWith_whole_of_room hn k
  have hsame : (Tree.whole k).expandWith n = .ok (.whole k) := rfl
  have hnext : Factor.expandWith n ⟨base, .whole k⟩ =
      (do Tree.canonicalWith n (.term (← Term.ofFactor ⟨.term t, .whole k⟩))) := by
    simp [Factor.expandWith, hbase, hsame, hexponent, hk1, hc]
  obtain ⟨hflat, hcpolynomial, hcbulk⟩ := hb.isFlat.reduce hc
  rw [hnext]
  refine (Term.of_onlyOverflows _ _ _ _).yields.bind fun u hu => ?_
  obtain ⟨hupolynomial, hsame, hubulk⟩ := Term.ofFactor_isPolynomial hu ⟨hflat, k, rfl, .inl hk⟩
  have htbulk : (Tree.term t).bulk ≤ b.bulk := hcbulk
  simp only at hubulk
  obtain ⟨e, he, hform⟩ := (canonicalWith_canonizesMonomials
    (show 2 * u.bulk < n by omega)).tree (.term u) hupolynomial le_rfl
  have hebulk : e.bulk ≤ u.bulk := hform.bulk_le
  refine .of_ok he ⟨hform.isReduced.isPolynomial.isFlat, ?_, by omega, fun h => h.elim⟩
  refine (hform.polynomial.trans hsame).trans ?_
  simp only [Tree.polynomial, Factor.polynomial_whole, ← hb.polynomial, ← hcpolynomial]

theorem Factor.expandWith_of_polynomial (hk : k ≤ maxExpandedPower ∨ b.IsVariable) :
    Yields (Factor.expandWith n ⟨base, .whole k⟩)
      ((Tree.power ⟨base, .whole k⟩).IsPolynomialExpansion (Tree.room (base.size + 1))) := by
  have hroom := Tree.room_succ base.size
  have hbulk := hb.bulk_lt
  have hexponent := Tree.canonicalWith_whole_of_room hn k
  have hsame : (Tree.whole k).expandWith n = .ok (.whole k) := rfl
  by_cases hk1 : (k : Int) = 1
  · have hfirst : Factor.expandWith n ⟨base, .whole k⟩ = .ok b := by
      simp only [Factor.expandWith, hbase, hsame, hexponent, ok_bind, Tree.isOne_whole,
        decide_eq_true hk1, if_true, pure_eq_ok]
    refine .of_ok hfirst ⟨hb.isFlat, ?_, by omega, fun h => h.elim⟩
    obtain rfl : k = 1 := by exact_mod_cast hk1
    rw [hb.polynomial, Tree.polynomial, Factor.polynomial_whole, pow_one]
  rcases b.reduce_onlyOverflows.yields with hoverflow | ⟨c, hc, -⟩
  · refine .inl ?_
    simp only [Factor.expandWith, hbase, hsame, hexponent, ok_bind, Tree.isOne_whole, hk1, hoverflow]
    rfl
  have hpower : (∀ ts, c ≠ .sum ts) → (Tree.power ⟨base, .whole k⟩).IsPolynomialExpansion
      (Tree.room (base.size + 1)) (.power ⟨b, .whole k⟩) := by
    intro hsum
    have hbpolynomial : b.IsPolynomial false := by
      rcases hb.isFlat.cases with hpolynomial | ⟨ts, rfl, -, -, hreduce, -⟩
      · exact hpolynomial
      · exact absurd (Except.ok.inj (hc.symm.trans hreduce)) (hsum ts)
    refine ⟨⟨hbpolynomial, k, rfl, hk⟩, ?_, ?_, fun h => h.elim⟩
    · simp only [Tree.polynomial, Factor.polynomial_whole, hb.polynomial]
    · simp only [Tree.bulk, Factor.bulk]
      omega
  have hlimit : (∀ name, c ≠ .variable name) → k ≤ maxExpandedPower := by
    intro hvariable
    refine hk.resolve_right ?_
    rintro ⟨name, rfl⟩
    exact hvariable name (Except.ok.inj hc).symm
  cases c with
  | sum ts => exact expandWith_of_sum hbase hb hn hc hk1 (hlimit (by simp))
  | term t => exact expandWith_of_term hbase hb hn hc hk1 (hlimit (by simp))
  | _ => exact .of_ok (by simp [Factor.expandWith, hbase, hsame, hexponent, hk1, hc]) (hpower (by simp))

end

theorem Factor.multiplyIn_expansion {P : MvPolynomial String Int} {bulk bound : Nat}
    {ts : List Term} {f : Factor} {e : Tree} (h : Term.AddsUpTo P bulk ts)
    (he : (Tree.power f).IsPolynomialExpansion bound e) (hn : 4 * (bulk * bound) ≤ n) :
    Yields (do (← e.pieces).foldlM (Term.multiplyIn n) ts)
      (Term.AddsUpTo (P * f.polynomial) (bulk * bound)) := by
  have hbound : bulk * (1 + 2 * e.bulk) ≤ bulk * bound := Nat.mul_le_mul_left _ he.bulk_lt.le
  have hpos : 1 ≤ bulk * bound := Nat.mul_pos h.bulk_pos ((Nat.zero_le _).trans_lt he.bulk_lt)
  refine (h.multiplyIn_pieces he.isFlat (by omega)).mono fun us hus => ?_
  rw [he.polynomial] at hus
  exact hus.mono hbound

/-- The placeholder at the bottom expands to the sum of nothing but one. -/
theorem Factor.expandProductWith_placeholder (hn : 1 ≤ n) :
    Yields (Factor.expandProductWith n [Term.ofValue .one] [.placeholder])
      (· = [Term.ofValue .one]) := by
  have hexpand : Factor.expandWith n .placeholder = .ok .one := by
    have hbase : Tree.one.expandWith n = .ok .one := rfl
    have hexponent : Tree.canonicalWith n .one = .ok .one :=
      (Tree.fixesLeaves_canonicalWith hn).number _
    have hone : Tree.one.isOne = .ok true := by simp [← Tree.whole_one]
    simp [Factor.placeholder, Factor.expandWith, hbase, hexponent, hone]
  have hpieces : Tree.one.pieces = .ok [.one] := rfl
  have htimes : (Term.ofValue .one).times .one = .ok (Term.ofValue .one) := by
    simp [Term.times, Tree.one, Term.scale, Term.ofValue, Value.one, Value.mul_exact]
  have hmultiply : Factor.expandProductWith n [Term.ofValue .one] [.placeholder] =
      Term.summed [Term.ofValue .one] := by
    have hin : Term.multiplyIn n [Term.ofValue .one] .one = Term.summed [Term.ofValue .one] := by
      have hall : Term.multiplyIn n [Term.ofValue .one] .one =
          Term.multiplyAll [Term.ofValue .one] .one := rfl
      simp [hall, Term.multiplyAll, htimes]
    simp only [Factor.expandProductWith, hexpand, hpieces, ok_bind, List.foldlM_cons,
      List.foldlM_nil, hin]
    cases Term.summed [Term.ofValue .one] <;> rfl
  rw [hmultiply]
  refine (Term.summed_onlyOverflows _).yields.mono fun us hus => ?_
  exact List.perm_singleton.mp (Term.sorted_perm hus)

theorem Tree.reduce_sum_one : (Tree.sum [Term.ofValue .one]).reduce = .ok .one := by
  have hone := Factor.isOne_placeholder
  have hvalue : Value.one.isOne = true := by simp [Value.one]
  have hnumber : Tree.number .one = .one := rfl
  simp only [Factor.placeholder] at hone
  simp [Tree.reduce, Term.ofValue, Term.side, Factor.placeholder, Term.reduce, Term.denominatorIsOne,
    Factor.allOne, hone, hvalue, hnumber]

theorem Term.canonicalWith_numerator {P : MvPolynomial String Int} {bulk : Nat} {ts : List Term}
    (h : AddsUpTo P bulk ts) (hn : 2 * bulk + 6 < n) :
    Yields (do Tree.canonicalWith n (.term
        (← fraction (← (Tree.sum ts).reduce) (← (Tree.sum [ofValue .one]).reduce)))) fun e =>
      e.IsReducedPolynomial ∧ e.polynomial = P ∧ e.bulk ≤ 2 + bulk := by
  refine h.reduce.bind fun c ⟨hflat, hpolynomial, hbulk⟩ => ?_
  rw [Tree.reduce_sum_one, ok_bind]
  refine (hflat.fraction (by omega)).mono fun e ⟨hreduced, hsame, hle⟩ => ?_
  exact ⟨hreduced, hsame.trans hpolynomial, by omega⟩

theorem Tree.canonicalWith_summands {us : List Term} {bulk : Nat}
    (hus : ∀ u ∈ us, u.IsPolynomial false) (hbulk : Term.totalBulk us ≤ bulk)
    (hn : 2 * bulk + 5 < n) :
    Yields (do canonicalWith n (.sum (← Term.summed us))) fun e =>
      e.IsReducedPolynomial ∧ e.polynomial = Term.totalPolynomial us ∧ e.bulk ≤ 3 + bulk := by
  obtain ⟨m, rfl⟩ : ∃ m, n = m + 1 := ⟨n - 1, by omega⟩
  refine (Term.summed_onlyOverflows us).yields.bind fun ss hss => ?_
  obtain ⟨hall, htotal, hperm, hne⟩ := Term.summed_isPolynomial hus hss
  have hle : Term.totalBulk ss ≤ 2 + bulk := by
    by_cases hnil : us = []
    · subst hnil
      rw [List.perm_singleton.mp (Term.sorted_perm hss)]
      exact Nat.le_add_right 2 bulk
    · rw [Term.totalBulk_perm (hperm hnil)]
      omega
  refine (canonicalWith_sum hall hne (by omega)).mono fun e he => ?_
  refine ⟨he.isReduced, he.polynomial.trans htotal, he.bulk_le.trans ?_⟩
  simp only [Tree.bulk]
  omega

theorem Tree.three_lt_room_one : 1 + 2 * 1 < room 1 := by
  have hsucc : 8 * room 0 ≤ room 1 := room_succ 0
  rw [room_zero] at hsucc
  exact lt_of_lt_of_le (by decide) hsucc

theorem Factor.IsPolynomial.size_gt {f : Factor} {sums : Bool} (h : f.IsPolynomial sums) :
    f.base.size + 1 ≤ f.size := by
  obtain ⟨base, exponent⟩ := f
  obtain ⟨-, k, rfl, -⟩ := h
  simp only [Factor.size, Tree.whole, Tree.size]
  omega

mutual

/-- A polynomial tree expands to a flat tree of the same polynomial, unless that overflows. -/
theorem Tree.expandWith_yields : (t : Tree) → t.IsPolynomial true → 4 * Tree.room t.size ≤ n →
    Yields (t.expandWith n) (t.IsPolynomialExpansion (Tree.room t.size))
  | .number _, h => fun _ => .of_ok rfl ⟨h, rfl, Tree.three_lt_room_one, fun _ => h⟩
  | .variable _, h => fun _ => .of_ok rfl ⟨h, rfl, Tree.three_lt_room_one, fun h => h.elim⟩
  | .power f, h => fun hn => by
    have hroom := Tree.room_mono h.size_gt
    exact (f.expandWith_yields h ((Nat.mul_le_mul_left 4 hroom).trans hn)).mono fun e he =>
      he.mono hroom
  | .term t, h => fun hn => t.expandWith_yields h hn
  | .sum ts, h => fun hn => by
    have hsize : (Tree.sum ts).size = Term.sizes ts + 1 := Nat.add_comm _ _
    have hroom := Tree.room_succ (Term.sizes ts)
    have hpos := Tree.room_pos (Term.sizes ts)
    rw [hsize] at hn ⊢
    refine (Term.expandedSummands_yields ts h.2 (by omega)).bind fun us hus => ?_
    obtain ⟨hpolynomial, htotal, hbulk⟩ := hus
    refine (Tree.canonicalWith_summands hpolynomial le_rfl (by omega)).mono fun e he => ?_
    obtain ⟨hreduced, hsame, hle⟩ := he
    exact ⟨hreduced.isFlat, hsame.trans htotal, by omega, fun _ => hreduced⟩
  | .constant _, h | .call .., h => h.elim

theorem Factor.expandWith_yields : (f : Factor) → f.IsPolynomial true →
    4 * Tree.room (f.base.size + 1) ≤ n →
    Yields (f.expandWith n) ((Tree.power f).IsPolynomialExpansion (Tree.room (f.base.size + 1)))
  | ⟨base, exponent⟩, h => fun hn => by
    obtain ⟨hbase, k, rfl, hk⟩ := h
    have hn' : 4 * Tree.room (base.size + 1) ≤ n := hn
    have hroom := Tree.room_succ base.size
    rcases base.expandWith_yields hbase (by omega) with hoverflow | ⟨b, hb, hexpansion⟩
    · exact .inl (by simp only [Factor.expandWith, hoverflow]; rfl)
    · refine Factor.expandWith_of_polynomial hb hexpansion hn' (hk.imp_right ?_)
      rintro ⟨name, rfl⟩
      exact ⟨name, (Except.ok.inj hb).symm⟩

theorem Term.expandWith_yields : (t : Term) → t.IsPolynomial true → 4 * Tree.room t.size ≤ n →
    Yields (t.expandWith n) ((Tree.term t).IsPolynomialExpansion (Tree.room t.size))
  | ⟨multiplier, divisor, top, bottom⟩, h => fun hn => by
    obtain ⟨⟨z, rfl⟩, rfl, -, htop, rfl⟩ := h
    have hsize : Factor.sizes top + 1 + 1 ≤ Term.size ⟨.exact z, .one, top, [.placeholder]⟩ := by
      simp only [Term.size]
      omega
    have hroom := Tree.room_succ (Factor.sizes top)
    have hsucc := (Tree.room_succ (Factor.sizes top + 1)).trans (Tree.room_mono hsize)
    have hpos := Tree.room_pos (Factor.sizes top)
    refine (Factor.expandProductWith_yields top htop (Term.addsUpTo_ofValue z) (by omega)).bind
      fun us hus => (Factor.expandProductWith_placeholder (by omega)).bind ?_
    rintro _ rfl
    refine (Term.canonicalWith_numerator hus (by omega)).mono fun e he => ?_
    obtain ⟨hreduced, hpolynomial, hle⟩ := he
    exact ⟨hreduced.isFlat, hpolynomial, by omega, fun _ => hreduced⟩

theorem Factor.expandProductWith_yields : (fs : List Factor) → {P : MvPolynomial String Int} →
    {bulk : Nat} → {output : List Term} → Factor.AllPolynomial true fs →
    Term.AddsUpTo P bulk output → 4 * (bulk * Tree.room (Factor.sizes fs)) ≤ n →
    Yields (Factor.expandProductWith n output fs)
      (Term.AddsUpTo (P * Factor.productPolynomial fs) (bulk * Tree.room (Factor.sizes fs)))
  | [], P, bulk, output, _, h => fun _ => by
    refine .of_ok rfl ?_
    simpa [Factor.productPolynomial, Factor.sizes, Tree.room_zero] using h
  | f :: rest, P, bulk, output, ⟨hf, hrest⟩, h => fun hn => by
    have hpos := h.bulk_pos
    have hroom := Tree.room_mono hf.size_gt
    have hproduct := Nat.mul_le_mul_left bulk (Tree.room_mul f.size (Factor.sizes rest))
    have hfirst := Nat.le_mul_of_pos_right (bulk * Tree.room f.size)
      (Tree.room_pos (Factor.sizes rest))
    have hbulk := Nat.le_mul_of_pos_left (Tree.room f.size) hpos
    rw [← Nat.mul_assoc] at hproduct
    simp only [Factor.sizes] at hn ⊢
    refine (f.expandWith_yields hf (by omega)).bind fun e he => ?_
    have hin := Factor.multiplyIn_expansion (n := n) h (he.mono hroom) (by omega)
    have hall := hin.bind fun us hus => Factor.expandProductWith_yields rest hrest hus (by omega)
    rw [bind_assoc] at hall
    refine hall.mono fun us hus => ?_
    rw [Factor.productPolynomial, ← mul_assoc]
    exact hus.mono hproduct

theorem Term.expandedSummands_yields : (ts : List Term) → Term.AllPolynomial true ts →
    4 * Tree.room (Term.sizes ts) ≤ n →
    Yields (Term.expandedSummands n ts) fun us => (∀ u ∈ us, u.IsPolynomial false) ∧
      Term.totalPolynomial us = Term.totalPolynomial ts ∧
      Term.totalBulk us < Tree.room (Term.sizes ts)
  | [], _ => fun _ => .of_ok rfl ⟨by simp, rfl, Tree.room_pos _⟩
  | t :: rest, ⟨ht, hrest⟩ => fun hn => by
    have hmono := Tree.room_mono (Nat.le_add_right t.size (Term.sizes rest))
    have hmono' := Tree.room_mono (Nat.le_add_left (Term.sizes rest) t.size)
    simp only [Term.sizes] at hn ⊢
    refine (t.expandWith_yields ht (by omega)).bind fun e he => ?_
    refine he.isFlat.summands.bind fun us hus => ?_
    refine (Term.expandedSummands_yields rest hrest (by omega)).bind fun vs hvs => .of_ok rfl ?_
    obtain ⟨hall, htotal, hbulk⟩ := hvs
    have hubulk := hus.bulk_le
    have hebulk := he.bulk_lt
    refine ⟨fun u hu => (List.mem_append.mp hu).elim (hus.isPolynomial u) (hall u), ?_, ?_⟩
    · rw [Term.totalPolynomial_append, hus.polynomial, he.polynomial, htotal]
      rfl
    · rw [Term.totalBulk_append]
      exact Tree.room_takes_both (by omega) hbulk

end

namespace Tree

theorem expand_yields {t : Tree} (h : t.IsPolynomial true) :
    Yields t.expand (t.IsPolynomialExpansion (room t.size)) := by
  obtain ⟨n, hn⟩ : ∃ n, room t.size + Term.enoughSteps (t.size * spread + 4) (room t.size) = n :=
    ⟨_, rfl⟩
  have hroom : 4 * room t.size ≤ n := by
    rw [← hn, Term.enoughSteps, Value.maxExactExponent]
    omega
  have hyields := t.expandWith_yields h hroom
  have hne : t.expandWith n ≠ .error .exhausted := by
    rcases hyields with hoverflow | ⟨e, he, -⟩
    · simp [hoverflow]
    · simp [he]
  have hexpand : t.expand = t.expandWith n :=
    withinSteps_eq (fun hle => t.expandWith_approximates hle) hne
  rwa [hexpand]

/-- The tree is built by the arithmetic of trees, and by powers with which sums are multiplied out,
the way the polynomial is built from integers and variables. -/
inductive Represents : Tree → MvPolynomial String Int → Prop
  | number (z : Int) : Represents (.number (.exact z)) (C z)
  | variable (name : String) : Represents (.variable name) (X name)
  | add {s t u : Tree} {P Q : MvPolynomial String Int} : Represents s P → Represents t Q →
      s.add t = .ok u → Represents u (P + Q)
  | multiply {s t u : Tree} {P Q : MvPolynomial String Int} : Represents s P → Represents t Q →
      s.multiply t = .ok u → Represents u (P * Q)
  | negate {t u : Tree} {P : MvPolynomial String Int} : Represents t P →
      t.negate = .ok u → Represents u (-P)
  | power {t : Tree} {P : MvPolynomial String Int} {k : Nat} : Represents t P →
      k ≤ maxExpandedPower → Represents (.power ⟨t, .whole k⟩) (P ^ k)

theorem Represents.isPolynomial {t : Tree} {P : MvPolynomial String Int} (h : t.Represents P) :
    t.IsPolynomial true ∧ t.polynomial = P := by
  induction h with
  | number z => exact ⟨⟨z, rfl⟩, by simp [polynomial, wholePart]⟩
  | «variable» name => exact ⟨trivial, rfl⟩
  | add _ _ hu hs ht =>
    obtain ⟨hpolynomial, -, heq⟩ := add_isPolynomial hs.1 ht.1 hu
    exact ⟨hpolynomial, by rw [heq, hs.2, ht.2]⟩
  | multiply _ _ hu hs ht =>
    obtain ⟨hpolynomial, heq⟩ := multiply_isPolynomial hs.1 ht.1 hu
    exact ⟨hpolynomial, by rw [heq, hs.2, ht.2]⟩
  | negate _ hu ht =>
    obtain ⟨hpolynomial, heq⟩ := negate_isPolynomial ht.1 hu
    exact ⟨hpolynomial, by rw [heq, ht.2]⟩
  | power _ hk ht =>
    exact ⟨⟨ht.1, _, rfl, .inl hk⟩, by rw [polynomial, Factor.polynomial_whole, ht.2]⟩

variable {p q : Tree} {P Q : MvPolynomial String Int}

/-- The difference of two trees expands to zero exactly if they stand for the same polynomial,
unless putting terms in order overflows. -/
theorem expand_difference (hp : p.Represents P) (hq : q.Represents Q) :
    (do (← p.add (← q.negate)).expand) = .error .overflow ∨
      ∃ e, (do (← p.add (← q.negate)).expand) = .ok e ∧ (e = .zero ↔ P = Q) := by
  obtain ⟨hp', rfl⟩ := hp.isPolynomial
  obtain ⟨hq', rfl⟩ := hq.isPolynomial
  refine (negate_onlyOverflows q).yields.bind fun r hr => ?_
  refine (add_onlyOverflows p r).yields.bind fun d hd => ?_
  obtain ⟨hr, hopposite⟩ := negate_isPolynomial hq' hr
  obtain ⟨hd, htotal, hdifference⟩ := add_isPolynomial hp' hr hd
  refine (expand_yields hd).mono fun e he => ?_
  rw [(he.isReduced htotal).eq_zero_iff, he.polynomial, hdifference, hopposite, ← sub_eq_add_neg,
    sub_eq_zero]

/-- The square of `-x` is the product of `x` and `x`, and that is not its own opposite. -/
theorem expand_difference_of_squares :
    let x : Factor := ⟨.variable "x", .one⟩
    let p : Tree := .power ⟨.term ⟨.negativeOne, .one, [x], [.placeholder]⟩, .whole 2⟩
    let q : Tree := .term ⟨.one, .one, [x, x], [.placeholder]⟩
    let r : Tree := .term ⟨.negativeOne, .one, [x, x], [.placeholder]⟩
    p.Represents ((-X "x") ^ 2) ∧ q.Represents (X "x" * X "x") ∧
      r.Represents (-(X "x" * X "x")) ∧ (do (← p.add (← q.negate)).expand) = .ok .zero ∧
      ∃ e, (do (← q.add (← r.negate)).expand) = .ok e ∧ e ≠ .zero := by
  intro x p q r
  let I : Interpretation := ⟨fun _ => 0, fun _ => 0, fun _ _ => none⟩
  have hopposite : q.negate = .ok r := by cbv
  have hp : p.Represents ((-X "x") ^ 2) := .power (.negate (.variable "x") (by cbv)) (by decide)
  have hq : q.Represents (X "x" * X "x") := .multiply (.variable "x") (.variable "x") (by cbv)
  have hr : r.Represents (-(X "x" * X "x")) := .negate hq hopposite
  have hx : (power x).Moderate := (moderate_variable "x").first
  have hxx : ∀ f ∈ [x, x], (power f).Moderate :=
    List.forall_mem_cons.mpr ⟨hx, List.forall_mem_singleton.mpr hx⟩
  have hbottom : ∀ f ∈ [Factor.placeholder], (power f).Moderate :=
    List.forall_mem_singleton.mpr moderate_placeholder
  refine ⟨hp, hq, hr, ?_, ?_⟩
  · -- the difference is a sum of two terms that are not alike
    let s : Term := ⟨.one, .one, [p.toFactor], [.placeholder]⟩
    let t : Term := ⟨.negativeOne, .one, [x, x], [.placeholder]⟩
    have hterms : [p, r].mapM toTerm = .ok [s, t] := by cbv
    have hrun : (do (← p.add (← q.negate)).expand) =
        Term.summed [s, t] >>= fun ts => (sum ts).expand := by
      rw [hopposite, ok_bind]
      change sumOf [p, r] >>= expand = _
      simp only [sumOf, hterms, ok_bind, bind_assoc, pure_bind]
    have hsquare : p.Moderate := Moderate.power
      (moderate_term (List.forall_mem_singleton.mpr hx) hbottom (by decide)) (by decide) (by decide)
    have hs : (term s).Moderate :=
      moderate_term (List.forall_mem_singleton.mpr hsquare) hbottom (by decide)
    have ht : (term t).Moderate := moderate_term hxx hbottom (by decide)
    obtain ⟨e, he⟩ := expand_summed_ok (I := I) (q := 0) (List.cons_ne_nil s [t])
      (List.forall_mem_cons.mpr ⟨hs, List.forall_mem_singleton.mpr ht⟩) (by decide +kernel)
    rcases expand_difference hp hq with hoverflow | ⟨e', he', hzero⟩
    · cases hoverflow.symm.trans (hrun.trans he)
    · rw [he', hzero.mpr (by ring)]
  · let d : Tree := .term ⟨.exact 2, .one, [x, x], [.placeholder]⟩
    have hnegate : r.negate = .ok q := by cbv
    have hadd : q.add q = .ok d := by cbv
    have hrun : (do (← q.add (← r.negate)).expand) = d.expand := by
      rw [hnegate, ok_bind, hadd, ok_bind]
    have hd : d.Moderate := moderate_term hxx hbottom (by decide)
    obtain ⟨e, he, -⟩ := expand_ok (I := I) (q := 0) hd (by decide +kernel)
    rcases expand_difference hq hr with hoverflow | ⟨e', he', hzero⟩
    · cases hoverflow.symm.trans (hrun.trans he)
    · refine ⟨e', he', fun hzero' => ?_⟩
      have hone := congrArg (MvPolynomial.eval fun _ => 1) (hzero.mp hzero')
      norm_num at hone

end Tree

end SymbolicAlgebra
