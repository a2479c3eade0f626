import SymbolicAlgebra.Proofs.Overflow
import SymbolicAlgebra.Proofs.Settling
import SymbolicAlgebra.Proofs.Simplification

/-!
# Sums with an undefined term

The sum of an undefined number and any other is undefined. So a sum of numbers and fractions of
numbers is simplified to an undefined one if one of its terms is undefined, unless it overflows: an
exact number may lie beyond the doubles, and only as a double can it be added to an undefined one.
-/

namespace SymbolicAlgebra

open Outcome

namespace Value

/-- Undefined if it is marked, and exact otherwise. -/
inductive Marked : Bool → Value → Prop
  | exact (q : Rat) : Marked false (.exact q)
  | undefined : Marked true .undefined

theorem undefined_add (v : Value) : Yields (undefined.add v) (· = undefined) := by
  have hadd : undefined.add v = do return float (Float.ofBits 0x7FF8000000000000 + (← v.toFloat)) :=
    rfl
  rw [hadd]
  exact v.toFloat_onlyOverflows.yields.bind fun x _ =>
    .of_ok rfl (congrArg float (Double.nan_add x))

theorem add_undefined (v : Value) : Yields (v.add undefined) (· = undefined) := by
  have hadd : v.add undefined =
      do return float ((← v.toFloat) + Float.ofBits 0x7FF8000000000000) := by
    cases v <;> rfl
  rw [hadd]
  exact v.toFloat_onlyOverflows.yields.bind fun x _ =>
    .of_ok rfl (congrArg float (Double.add_nan x))

theorem undefined_mul (v : Value) : Yields (undefined.mul v) (· = undefined) := by
  have hmul : undefined.mul v = do return float (Float.ofBits 0x7FF8000000000000 * (← v.toFloat)) :=
    rfl
  rw [hmul]
  exact v.toFloat_onlyOverflows.yields.bind fun x _ =>
    .of_ok rfl (congrArg float (Double.nan_mul x))

namespace Marked

variable {b c : Bool} {v w : Value}

theorem add (hv : v.Marked b) (hw : w.Marked c) : Yields (v.add w) (Marked (b || c)) := by
  cases hv with
  | undefined => exact (undefined_add w).mono fun _ h => h ▸ .undefined
  | exact p =>
    cases hw with
    | exact q => exact .of_ok (add_exact p q) (.exact _)
    | undefined => exact (add_undefined _).mono fun _ h => h ▸ .undefined

theorem mul_exact (hv : v.Marked b) (q : Rat) : Yields (v.mul (.exact q)) (Marked b) := by
  cases hv with
  | exact p => exact .of_ok (Value.mul_exact p q) (.exact _)
  | undefined => exact (undefined_mul _).mono fun _ h => h ▸ .undefined

theorem isZero_eq_false (hv : v.Marked true) : v.isZero = false := by
  cases hv
  decide

theorem reduceRatio (hv : v.Marked b) {d : Rat} (hd : d ≠ 0) :
    ∃ w e, Value.reduceRatio v (.exact d) = .ok (w, .exact e) ∧ w.Marked b ∧ e ≠ 0 := by
  cases hv with
  | exact p =>
    obtain ⟨n, k, hreduced, hk, -⟩ := reduceRatio_exact p hd
    exact ⟨_, _, hreduced, .exact _, by exact_mod_cast hk.ne'⟩
  | undefined => exact ⟨_, d, rfl, .undefined, hd⟩

end Marked

end Value

/-- A fraction of numbers, its numerator undefined if it is marked and exact otherwise. -/
def Term.Marked (b : Bool) (t : Term) : Prop :=
  ∃ m d, m.Marked b ∧ d ≠ 0 ∧ t = ⟨m, .exact d, [.placeholder], [.placeholder]⟩

/-- A number or a fraction of numbers, undefined if it is marked and exact otherwise. -/
def Tree.Marked (b : Bool) : Tree → Prop
  | .number v => v.Marked b
  | .term t => t.Marked b
  | _ => False

variable {canonical : Tree → Except Fault Tree} {steps : Nat} {b c : Bool} {s t : Term}

theorem Product.step_placeholder (hone : canonical .one = .ok .one) (p : Product) (onTop : Bool) :
    p.step canonical ⟨.placeholder, onTop⟩ = .ok (p, []) := by
  have hnormal : Factor.normalize canonical .placeholder = .ok .placeholder := by
    simp only [Factor.normalize, Factor.placeholder, hone, ok_bind]
    rfl
  rw [step_plain hnormal p onTop one_ne_zero Factor.value?_placeholder]
  cases onTop <;> simp [fold, Value.mul_one]

namespace Term

theorem marked_zero : zero.Marked false := ⟨.zero, 1, .exact 0, one_ne_zero, rfl⟩

namespace Marked

theorem simplifyBy (ht : t.Marked b) (hone : canonical .one = .ok .one) (hsteps : 2 ≤ steps) :
    ∃ u, t.simplifyBy steps canonical = .ok u ∧ u.Marked b := by
  obtain ⟨m, d, hm, hd, rfl⟩ := ht
  cases hzero : m.isZero with
  | true =>
    cases b with
    | true => simp [hm.isZero_eq_false] at hzero
    | false => exact ⟨zero, by simp [Term.simplifyBy, hzero], marked_zero⟩
  | false =>
    obtain ⟨k, rfl⟩ : ∃ k, steps = k + 2 := ⟨steps - 2, by omega⟩
    obtain ⟨w, e, hreduced, hw, he⟩ := hm.reduceRatio hd
    refine ⟨⟨w, .exact e, [.placeholder], [.placeholder]⟩, ?_, w, e, hw, he, rfl⟩
    simp [Term.simplifyBy, hzero, Product.items, Product.run, Product.step_placeholder hone,
      Product.cancel, Product.toTerm, hreduced, Term.of, collect_nil, side]

theorem reduce (ht : t.Marked b) : ∃ c, t.reduce = .ok c ∧ c.Marked b := by
  obtain ⟨m, d, hm, hd, rfl⟩ := ht
  have hplaceholder : Factor.isOne ⟨.one, .one⟩ = .ok true := Factor.isOne_placeholder
  by_cases hd1 : d = 1
  · refine ⟨.number m, ?_, hm⟩
    simp [Term.reduce, Factor.placeholder, denominatorIsOne, hd1, Factor.allOne, hplaceholder]
  · refine ⟨.term _, ?_, m, d, hm, hd, rfl⟩
    simp [Term.reduce, Factor.placeholder, denominatorIsOne, hd1]

theorem isZero (ht : t.Marked b) : ∃ z, t.isZero = .ok z ∧ (z = true → b = false) := by
  obtain ⟨m, d, hm, hd, rfl⟩ := ht
  have hzero : Factor.anyZero [.placeholder] = .ok false := rfl
  cases hmzero : m.isZero with
  | false => exact ⟨false, by simp [Term.isZero, hmzero, hzero], by simp⟩
  | true =>
    refine ⟨true, by simp [Term.isZero, hmzero], fun _ => ?_⟩
    cases b with
    | true => simp [hm.isZero_eq_false] at hmzero
    | false => rfl

theorem withCommonDenominator (hs : s.Marked b) (ht : t.Marked c) :
    Yields (s.withCommonDenominator t) (Term.Marked b) := by
  obtain ⟨m, d, hm, hd, rfl⟩ := hs
  obtain ⟨m', d', -, hd', rfl⟩ := ht
  unfold Term.withCommonDenominator
  split
  · exact .of_ok rfl ⟨m, d, hm, hd, rfl⟩
  · refine (hm.mul_exact d').bind fun w hw => .of_ok ?_ ⟨w, d * d', hw, mul_ne_zero hd hd', rfl⟩
    have hcollect (v : Value) : collect v [.placeholder, .placeholder] = .ok (v, []) :=
      collect_placeholders v (by simp)
    simp [Value.mul_exact, Term.of, hcollect, side]

theorem isLike (hs : s.Marked b) (ht : t.Marked c) : s.isLike t = true := by
  obtain ⟨m, d, -, -, rfl⟩ := hs
  obtain ⟨m', d', -, -, rfl⟩ := ht
  rfl

/-- The sum of two fractions is undefined if one of them is. -/
theorem add (hs : s.Marked b) (ht : t.Marked c) :
    Yields (s.add t) fun r => ∃ u, r = .term u ∧ u.Marked (b || c) := by
  refine (hs.withCommonDenominator ht).bind fun left hleft => ?_
  refine (ht.withCommonDenominator hs).bind fun right hright => ?_
  rw [if_pos (hleft.isLike hright)]
  obtain ⟨m, d, hm, hd, rfl⟩ := hleft
  obtain ⟨m', d', hm', -, rfl⟩ := hright
  exact (hm.add hm').bind fun v hv => .of_ok rfl ⟨_, rfl, v, d, hv, hd, rfl⟩

end Marked

def AllMarked : Bool → List Term → Prop
  | b, [] => b = false
  | b, t :: ts => ∃ c c', t.Marked c ∧ AllMarked c' ts ∧ b = (c || c')

variable {ts us combined pending : List Term}

theorem allMarked_nil : AllMarked false [] := rfl

theorem allMarked_singleton : AllMarked b [t] ↔ t.Marked b := by
  simp [AllMarked]

theorem AllMarked.perm (hperm : ts.Perm us) (h : AllMarked b ts) : AllMarked b us := by
  induction hperm generalizing b with
  | nil => exact h
  | cons t _ ih =>
    obtain ⟨c, c', ht, h, rfl⟩ := h
    exact ⟨c, c', ht, ih h, rfl⟩
  | swap s t ts =>
    obtain ⟨c, _, ht, ⟨d, d', hs, h, rfl⟩, rfl⟩ := h
    exact ⟨d, c || d', hs, ⟨c, d', ht, h, rfl⟩, Bool.or_left_comm c d d'⟩
  | trans _ _ ih₁ ih₂ => exact ih₂ (ih₁ h)

theorem AllMarked.rank_ok (h : AllMarked b ts) : ∀ t ∈ ts, ∃ x, t.rank = .ok x := by
  induction ts generalizing b with
  | nil => simp
  | cons t ts ih =>
    obtain ⟨c, c', ⟨m, d, -, -, rfl⟩, h, -⟩ := h
    refine List.forall_mem_cons.mpr ⟨Term.rank_ok fun f hf => ?_, ih h⟩
    obtain rfl : f = .placeholder := by simpa using hf
    exact ⟨1, by decide, Tree.whole_one.symm⟩

theorem combine_marked (hone : canonical .one = .ok .one) (hsteps : 2 ≤ steps)
    (hcombined : AllMarked b combined) (hlength : combined.length ≤ 1) (ht : t.Marked c) :
    Yields (combine steps canonical combined t) fun us =>
      us.length ≤ 1 ∧ AllMarked (b || c) us := by
  cases combined with
  | nil =>
    obtain rfl : b = false := hcombined
    exact .of_ok rfl ⟨le_rfl, by simpa using allMarked_singleton.mpr ht⟩
  | cons s rest =>
    obtain rfl : rest = [] := List.eq_nil_of_length_eq_zero (by simpa using hlength)
    have hs := allMarked_singleton.mp hcombined
    rw [combine, if_pos (hs.isLike ht)]
    refine (hs.add ht).bind ?_
    rintro _ ⟨u, rfl, hu⟩
    obtain ⟨total, htotal, hmarked⟩ := hu.simplifyBy hone hsteps
    obtain ⟨z, hz, hdefined⟩ := hmarked.isZero
    refine .of_ok (a := if z then [] else [total]) ?_ ?_
    · cases z <;> simp [Tree.toTerm, htotal, hz]
    · cases z with
      | true => simpa [hdefined rfl] using allMarked_nil
      | false => simpa using allMarked_singleton.mpr hmarked

theorem combineStep_marked (hone : canonical .one = .ok .one) (hsteps : 2 ≤ steps)
    (hcombined : AllMarked b combined) (hlength : combined.length ≤ 1) (ht : t.Marked c) :
    Yields (combineStep steps canonical combined t) fun r =>
      r.2 = [] ∧ r.1.length ≤ 1 ∧ AllMarked (b || c) r.1 := by
  obtain ⟨u, hu, hmarked⟩ := ht.simplifyBy hone hsteps
  obtain ⟨r, hr, hrmarked⟩ := hmarked.reduce
  obtain ⟨z, hz, hdefined⟩ := hmarked.isZero
  have hstep : combineStep steps canonical combined t =
      if z then .ok (combined, []) else (do return (← combine steps canonical combined u, [])) := by
    cases r with
    | sum terms => exact hrmarked.elim
    | _ => cases z <;> simp [combineStep, hu, hr, hz]
  rw [hstep]
  cases z with
  | true => exact .of_ok rfl ⟨rfl, hlength, by simpa [hdefined rfl] using hcombined⟩
  | false =>
    exact (combine_marked hone hsteps hcombined hlength hmarked).bind fun us hus =>
      .of_ok rfl ⟨rfl, hus⟩

/-- The run leaves at most one fraction, which is undefined if one of the queue is, or one of those
that were combined before. -/
theorem combineAll_marked (hone : canonical .one = .ok .one) (hsteps : 2 ≤ steps) {n : Nat}
    (hpending : AllMarked c pending) (hn : pending.length ≤ n) (hcombined : AllMarked b combined)
    (hlength : combined.length ≤ 1) :
    Yields (combineAll steps canonical n combined pending) fun us =>
      us.length ≤ 1 ∧ AllMarked (b || c) us := by
  induction pending generalizing b c n combined with
  | nil =>
    obtain rfl : c = false := hpending
    exact .of_ok (by cases n <;> rfl) ⟨hlength, by simpa using hcombined⟩
  | cons t pending ih =>
    obtain ⟨n, rfl⟩ : ∃ k, n = k + 1 := ⟨n - 1, by simp at hn; omega⟩
    obtain ⟨c, c', ht, hpending, rfl⟩ := hpending
    rw [combineAll_cons, ← Bool.or_assoc]
    refine (combineStep_marked hone hsteps hcombined hlength ht).bind ?_
    rintro ⟨combined, _⟩ ⟨rfl, hlength, hcombined⟩
    simpa using ih hpending (by simpa using hn) hcombined hlength

theorem simplifySumBy_marked (hone : canonical .one = .ok .one) (hsteps : 2 ≤ steps)
    (hts : AllMarked true ts) (hlength : ts.length ≤ steps) :
    Yields (simplifySumBy steps canonical ts) fun us => ∃ u, us = [u] ∧ u.Marked true := by
  refine (combineAll_marked hone hsteps hts hlength allMarked_nil (Nat.zero_le _)).bind ?_
  rintro us ⟨hle, hus⟩
  cases us with
  | nil => cases hus
  | cons u rest =>
    obtain rfl : rest = [] := List.eq_nil_of_length_eq_zero (by simpa using hle)
    have hu : u.Marked true := by simpa [allMarked_singleton] using hus
    obtain ⟨ss, hss, hperm⟩ := sorted_ok hus.rank_ok
    obtain rfl := List.perm_singleton.mp hperm
    obtain ⟨z, hz, hdefined⟩ := hu.isZero
    obtain rfl : z = false := by cases z <;> simp_all
    exact .of_ok (by simpa [List.filterM, List.filterAuxM, hz, summed] using hss) ⟨u, rfl, hu⟩

end Term

theorem Tree.canonicalWith_sum_marked {ts : List Term} {n : Nat} (hts : Term.AllMarked true ts)
    (hn : ts.length + 3 ≤ n) : Yields ((Tree.sum ts).canonicalWith n) (Tree.Marked true) := by
  obtain ⟨k, rfl⟩ : ∃ k, n = k + 2 := ⟨n - 2, by omega⟩
  have hone : canonicalWith (k + 1) .one = .ok .one := rfl
  have hsum : Yields (Term.simplifySumBy (k + 1) (canonicalWith (k + 1)) ts) fun us =>
      ∃ u, us = [u] ∧ u.Marked true :=
    Term.simplifySumBy_marked hone (by omega) hts (by omega)
  rw [canonicalWith_succ, simplifyBy]
  rcases hsum with hoverflow | ⟨_, hus, u, rfl, hu⟩
  · exact .inl (by rw [hoverflow]; rfl)
  · obtain ⟨c, hc, hmarked⟩ := hu.reduce
    exact .of_ok (by simpa [hus, Tree.reduce] using hc) hmarked

end SymbolicAlgebra
