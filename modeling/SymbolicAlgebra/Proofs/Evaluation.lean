import Mathlib
import SymbolicAlgebra.Proofs.Numeral

/-!
# Evaluation computes the value

A tree without constants and calls is evaluated to the numeral of its value when all its variables
are bound to exact numbers. The induction is on the tree, within a number of steps that suffices for
the terms and sums of numerals that come up on the way.
-/

namespace SymbolicAlgebra

open Outcome

variable {I : Interpretation}

namespace Scope

/-- The exact number to which a variable is bound. -/
def number? (s : Scope) (name : String) : Option Rat := do
  match ← s.get? name with
  | .number v => v.rational?
  | _ => none

def interpretation (s : Scope) : Interpretation where
  ofVariable name := (s.number? name).getD 0
  ofConstant _ := 0
  ofFunction _ _ := none

theorem number?_eq_some {s : Scope} {name : String} {q : Rat} :
    s.number? name = some q ↔ s.get? name = some (.number (.exact q)) := by
  unfold number?
  cases s.get? name with
  | none => simp
  | some t => cases t <;> simp [Value.rational?_eq_some]

end Scope

/-- A node that is not symbolic: not a constant, not a call. -/
def Tree.IsArithmetic : Tree → Prop
  | .constant _ | .call _ _ => False
  | _ => True

/-- What evaluation needs of a node: a variable is bound to an exact number, and an exponent is of a
magnitude with which powers are computed exactly. -/
def Tree.IsEvaluable (scope : Scope) : Tree → Prop
  | .constant _ | .call _ _ => False
  | .variable name => ∃ q, scope.number? name = some q
  | .power ⟨_, e⟩ => ∀ x, e.meaning? scope.interpretation = some x →
      x.num.natAbs ≤ Value.maxExactExponent
  | _ => True

variable {scope : Scope} {limit n : Nat} {q : Rat}

theorem Tree.absorb_number (m y : Rat) :
    (Tree.number (.exact y)).absorb .one (.exact m) = .ok (.exact (m * y), none) := by
  have hvalue : (⟨.number (.exact y), .whole 1⟩ : Factor).value? =
      .ok (some (.exact (y ^ (1 : Int)))) :=
    Factor.value?_of_plain (I := Scope.interpretation {}) rfl rfl (.inr Int.one_nonneg) (by decide)
  rw [← Tree.whole_one, Tree.absorb.eq_def]
  simp [hvalue, Value.mul_exact]

namespace Term

theorem collect_numbers (m : Rat) (ys : List Rat) :
    collect (.exact m) ((ys.map fun y => Tree.number (.exact y)).map Tree.toFactor) =
      .ok (.exact (m * ys.prod), []) := by
  induction ys generalizing m with
  | nil => rw [List.prod_nil, mul_one]; rfl
  | cons y ys ih =>
    rw [List.prod_cons, ← mul_assoc]
    exact collect_cons_eq_ok.mpr ⟨_, none, [], Tree.absorb_number m y, ih (m * y), rfl⟩

theorem of_numbers (m d : Rat) (xs ys : List Rat) :
    of (.exact m) (.exact d) ((xs.map fun x => Tree.number (.exact x)).map Tree.toFactor)
        ((ys.map fun y => Tree.number (.exact y)).map Tree.toFactor) =
      .ok ⟨.exact (m * xs.prod), .exact (d * ys.prod), side [], side []⟩ := by
  simp only [of, collect_numbers, ok_bind, pure_eq_ok]

theorem summed_numerals {ts : List Term} (hts : ∀ t ∈ ts, ∃ x, t.IsNumeral x)
    (hq : total? I ts = some q) :
    ∃ ss, summed ts = .ok ss ∧ (∀ s ∈ ss, ∃ x, s.IsNumeral x) ∧ total? I ss = some q ∧
      ss.length ≤ max 1 ts.length := by
  have hrank : ∀ t : Term, ∀ x, t.IsNumeral x → ∃ r, t.rank = .ok r := by
    intro t x ht
    apply rank_ok
    intro f hf
    rw [ht.wholeExponents f hf]
    exact ⟨1, by decide, Tree.whole_one.symm⟩
  cases ts with
  | nil =>
    obtain ⟨ss, hss, hperm⟩ := sorted_ok (List.forall_mem_singleton.mpr zero_rank_ok)
    obtain rfl := List.perm_singleton.mp hperm
    obtain rfl : (0 : Rat) = q := Option.some.inj hq
    refine ⟨[zero], hss, List.forall_mem_singleton.mpr ⟨0, isNumeral_ofValue 0⟩, ?_, le_rfl⟩
    exact (Tree.meaning?_sum_singleton zero).trans (meaning?_ofValue 0)
  | cons t ts =>
    obtain ⟨ss, hss, hperm⟩ := sorted_ok fun s hs =>
      have ⟨x, hx⟩ := hts s hs
      hrank s x hx
    exact ⟨ss, hss, fun s hs => hts s (hperm.mem_iff.mp hs), (total?_perm hperm).trans hq,
      hperm.length_eq.trans_le (Nat.le_max_right _ _)⟩

theorem totalEffort_numerals {ts : List Term} (hts : ∀ t ∈ ts, ∃ x, t.IsNumeral x) :
    totalEffort ts = 2 * ts.length := by
  induction ts with
  | nil => rfl
  | cons t ts ih =>
    obtain ⟨⟨x, hx⟩, hts⟩ := List.forall_mem_cons.mp hts
    rw [totalEffort, hx.effort, ih hts, List.length_cons]
    omega

end Term

theorem Tree.canonicalWith_sum_numerals {ts : List Term} (hts : ∀ t ∈ ts, ∃ x, t.IsNumeral x)
    (hq : Term.total? I ts = some q) (hlength : 1 + 2 * ts.length ≤ limit)
    (hn : limit + Term.enoughSteps (Value.maxExactExponent + 2) limit ≤ n) :
    ∃ c, (Tree.sum ts).canonicalWith n = .ok c ∧ c.IsNumeral q := by
  have hhighest : Term.highestDegree 0 ts ≤ 0 := by
    refine Term.highestDegree_le_iff.mpr fun t ht => ?_
    obtain ⟨x, hx⟩ := hts t ht
    exact (hx.degree 0).le
  have hdegree : (Tree.sum ts).degree 0 = 0 := Nat.max_eq_zero_iff.mpr ⟨rfl, by omega⟩
  have hfits : (Tree.sum ts).Fits 0 (Value.maxExactExponent + 2) := by
    refine fits_sum.mpr ⟨by omega, fun t ht => ?_⟩
    obtain ⟨x, hx⟩ := hts t ht
    exact hx.fits (Nat.le_add_left _ _)
  have heffort : (Tree.sum ts).effort ≤ limit := by
    simpa [effort, Term.totalEffort_numerals hts] using hlength
  exact canonicalWith_isNumeral hfits hdegree heffort hq hn

/-- The number of steps suffices for terms and sums of numerals within the given effort. -/
def Suffices (limit n : Nat) : Prop :=
  limit + Term.enoughSteps (Value.maxExactExponent + 2) limit ≤ n

theorem exists_suffices (limit : Nat) : ∃ n, Suffices limit n := ⟨_, le_rfl⟩

theorem Suffices.add_three_le (hn : Suffices limit n) : limit + 3 ≤ n := by
  unfold Suffices Term.enoughSteps at hn
  omega

/-- The outcome is a numeral. -/
def Tree.EvaluatesTo (q : Rat) (outcome : Except Fault Tree) : Prop :=
  ∃ c, outcome = .ok c ∧ c.IsNumeral q

mutual

theorem Tree.evaluateWith_ok (hn : Suffices limit n) :
    (t : Tree) → {q : Rat} → (∀ s ∈ t.nodes, s.IsEvaluable scope) → 2 * t.size < limit →
      t.meaning? scope.interpretation = some q → Tree.EvaluatesTo q (t.evaluateWith n scope)
  | .number v, q, _, _, hq => ⟨_, rfl, Tree.meaning?_number_eq_some.mp hq⟩
  | .constant c, q, h, _, _ => (h _ (Tree.self_mem_nodes _)).elim
  | .variable name, q, h, _, hq => by
    obtain ⟨r, hr⟩ := h _ (Tree.self_mem_nodes _)
    obtain rfl : r = q := by simpa [Tree.meaning?, Scope.interpretation, hr] using hq
    have hget := Scope.number?_eq_some.mp hr
    exact ⟨.number (.exact r), by simp [Tree.evaluateWith, hget], rfl⟩
  | .power f, q, h, hsize, hq => by
    exact ⟨_, f.evaluateWith_ok hn h hsize hq, rfl⟩
  | .term t, q, h, hsize, hq => t.evaluateWith_ok hn h hsize hq
  | .sum ts, q, h, hsize, hq => by
    simp only [Tree.size] at hsize
    obtain ⟨us, hus, hnumerals, htotal, hlength⟩ := Term.evaluateAllWith_ok hn ts
      (fun s hs => h s (List.mem_cons_of_mem _ hs)) (by omega) hq
    obtain ⟨ss, hss, hnumerals', htotal', hlength'⟩ := Term.summed_numerals hnumerals htotal
    obtain ⟨c, hc, hnumeral⟩ :=
      Tree.canonicalWith_sum_numerals hnumerals' htotal' (by omega) hn
    exact ⟨c, by simp [Tree.evaluateWith, hus, hss, hc], hnumeral⟩
  | .call f args, q, h, _, _ => (h _ (Tree.self_mem_nodes _)).elim

theorem Factor.evaluateWith_ok (hn : Suffices limit n) :
    (f : Factor) → {q : Rat} → (∀ s ∈ f.nodes, s.IsEvaluable scope) → 2 * f.size < limit →
      f.meaning? scope.interpretation = some q →
      f.evaluateWith n scope = .ok (.number (.exact q))
  | ⟨base, exponent⟩, q, h, hsize, hq => by
    obtain ⟨x, k, hx, hk, hxk, rfl⟩ := Factor.meaning?_eq_some.mp hq
    simp only [Factor.size] at hsize
    have hbase : ∀ s ∈ base.nodes, s.IsEvaluable scope :=
      fun s hs => h s (List.mem_cons_of_mem _ (List.mem_append_left _ hs))
    have hexponent : ∀ s ∈ exponent.nodes, s.IsEvaluable scope :=
      fun s hs => h s (List.mem_cons_of_mem _ (List.mem_append_right _ hs))
    obtain ⟨b, hb, hbx⟩ := base.evaluateWith_ok hn hbase (by omega) hx
    obtain ⟨e, he, hek⟩ := exponent.evaluateWith_ok hn hexponent (by omega) hk
    have hmoderate : k.natAbs ≤ Value.maxExactExponent := by
      simpa using h (.power ⟨base, exponent⟩) List.mem_cons_self k hk
    simp [Factor.evaluateWith, hb, he, hbx.plainValue?, hek.plainValue?,
      Value.pow_exact hxk hmoderate]

theorem Term.evaluateWith_ok (hn : Suffices limit n) :
    (t : Term) → {q : Rat} → (∀ s ∈ t.nodes, s.IsEvaluable scope) → 2 * t.size < limit →
      t.meaning? scope.interpretation = some q → Tree.EvaluatesTo q (t.evaluateWith n scope)
  | ⟨multiplier, divisor, top, bottom⟩, q, h, hsize, hq => by
    obtain ⟨m, d, a, k, rfl, rfl, ha, hk, hd0, hk0, rfl⟩ := Term.meaning?_eq_some.mp hq
    simp only [Term.size] at hsize
    by_cases hm0 : m = 0
    · subst hm0
      exact ⟨.zero, by simp [Term.evaluateWith], by simp [Tree.zero, Tree.IsNumeral, Value.zero]⟩
    have htop : ∀ s ∈ Factor.nodesOfAll top, s.IsEvaluable scope :=
      fun s hs => h s (List.mem_cons_of_mem _ (List.mem_append_left _ hs))
    have hbottom : ∀ s ∈ Factor.nodesOfAll bottom, s.IsEvaluable scope :=
      fun s hs => h s (List.mem_cons_of_mem _ (List.mem_append_right _ hs))
    obtain ⟨xs, hxs, rfl⟩ := Factor.evaluateAllWith_ok hn top htop (by omega) ha
    obtain ⟨ys, hys, rfl⟩ := Factor.evaluateAllWith_ok hn bottom hbottom (by omega) hk
    have hrebuilt := Term.of_numbers m d xs ys
    have hnumeral : (⟨.exact (m * xs.prod), .exact (d * ys.prod), Term.side [], Term.side []⟩ :
        Term).IsNumeral (m * xs.prod / (d * ys.prod)) :=
      ⟨_, _, mul_ne_zero hd0 hk0, rfl, rfl⟩
    obtain ⟨c, hc, hcq⟩ := Tree.canonicalWith_isNumeral (t := .term _)
      (hnumeral.fits (Nat.le_add_left _ _)) (hnumeral.degree 0)
      (hnumeral.effort.trans_le (by omega)) (hnumeral.meaning? (I := scope.interpretation)) hn
    refine ⟨c, ?_, hcq⟩
    cases c with
    | term t =>
      obtain ⟨r, l, hl, -, rfl⟩ := hcq
      simp [Term.evaluateWith, hm0, hd0, hxs, hys, -List.map_map, hrebuilt, hk0, hc, hl]
    | _ => simp [Term.evaluateWith, hm0, hd0, hxs, hys, -List.map_map, hrebuilt, hk0, hc]

theorem Factor.evaluateAllWith_ok (hn : Suffices limit n) :
    (fs : List Factor) → {q : Rat} → (∀ s ∈ Factor.nodesOfAll fs, s.IsEvaluable scope) →
      2 * Factor.sizes fs < limit → Factor.product? scope.interpretation fs = some q →
      ∃ xs : List Rat, Factor.evaluateAllWith n scope fs =
        .ok (xs.map fun x => .number (.exact x)) ∧ xs.prod = q
  | [], q, _, _, hq => ⟨[], rfl, Option.some.inj hq⟩
  | f :: rest, q, h, hsize, hq => by
    obtain ⟨a, b, ha, hb, rfl⟩ := Factor.product?_cons_eq_some.mp hq
    simp only [Factor.sizes] at hsize
    have hf := f.evaluateWith_ok hn (fun s hs => h s (List.mem_append_left _ hs)) (by omega) ha
    obtain ⟨xs, hxs, rfl⟩ := Factor.evaluateAllWith_ok hn rest
      (fun s hs => h s (List.mem_append_right _ hs)) (by omega) hb
    exact ⟨a :: xs, by simp [Factor.evaluateAllWith, hf, hxs], List.prod_cons⟩

theorem Term.evaluateAllWith_ok (hn : Suffices limit n) :
    (ts : List Term) → {q : Rat} → (∀ s ∈ Term.nodesOfAll ts, s.IsEvaluable scope) →
      2 * Term.sizes ts < limit → Term.total? scope.interpretation ts = some q →
      ∃ us, Term.evaluateAllWith n scope ts = .ok us ∧ (∀ u ∈ us, ∃ x, u.IsNumeral x) ∧
        Term.total? scope.interpretation us = some q ∧ us.length ≤ Term.sizes ts
  | [], q, _, _, hq => ⟨[], rfl, by simp, hq, le_rfl⟩
  | t :: rest, q, h, hsize, hq => by
    obtain ⟨a, b, ha, hb, rfl⟩ := Term.total?_cons_eq_some.mp hq
    simp only [Term.sizes] at hsize
    obtain ⟨c, hc, hca⟩ :=
      t.evaluateWith_ok hn (fun s hs => h s (List.mem_append_left _ hs)) (by omega) ha
    obtain ⟨u, hu, hnumeral⟩ := hca.toTerm
    obtain ⟨us, hus, hnumerals, htotal, hlength⟩ := Term.evaluateAllWith_ok hn rest
      (fun s hs => h s (List.mem_append_right _ hs)) (by omega) hb
    have hpos := t.effort_pos
    have hle := t.effort_le_size
    refine ⟨u :: us, by simp [Term.evaluateAllWith, hc, hu, hus], ?_, ?_, ?_⟩
    · exact List.forall_mem_cons.mpr ⟨⟨a, hnumeral⟩, hnumerals⟩
    · exact Term.total?_cons_eq_some.mpr ⟨a, b, hnumeral.meaning?, htotal, rfl⟩
    · simp only [List.length_cons, Term.sizes]
      omega

end

namespace Tree

theorem isEvaluable_of_mem {t : Tree} (hkinds : ∀ s ∈ t.nodes, s.IsArithmetic)
    (hbound : ∀ name ∈ t.variables, ∃ r : Rat, scope.get? name = some (.number (.exact r)))
    (hexponents : ∀ b e x, power ⟨b, e⟩ ∈ t.nodes → e.meaning? scope.interpretation = some x →
      x.num.natAbs ≤ Value.maxExactExponent) :
    ∀ s ∈ t.nodes, s.IsEvaluable scope := by
  intro s hs
  match s with
  | .constant c => exact hkinds _ hs
  | .call f args => exact hkinds _ hs
  | .variable name =>
    have hname : name ∈ t.variables := List.mem_filterMap.mpr ⟨_, hs, rfl⟩
    obtain ⟨r, hr⟩ := hbound name hname
    exact ⟨r, Scope.number?_eq_some.mpr hr⟩
  | .power ⟨b, e⟩ => exact fun x hx => hexponents b e x hs hx
  | .number _ | .term _ | .sum _ => trivial

theorem evaluate_isNumeral {t : Tree} (hkinds : ∀ s ∈ t.nodes, s.IsArithmetic)
    (hbound : ∀ name ∈ t.variables, ∃ r : Rat, scope.get? name = some (.number (.exact r)))
    (hexponents : ∀ b e x, power ⟨b, e⟩ ∈ t.nodes → e.meaning? scope.interpretation = some x →
      x.num.natAbs ≤ Value.maxExactExponent)
    (hq : t.meaning? scope.interpretation = some q) :
    EvaluatesTo q (t.evaluate (some scope)) := by
  obtain ⟨c, hc, hnumeral⟩ := t.evaluateWith_ok le_rfl
    (isEvaluable_of_mem hkinds hbound hexponents) (Nat.lt_succ_self (2 * t.size)) hq
  exact ⟨c, withinSteps_ok (fun hmn => evaluateWith_approximates hmn t) hc, hnumeral⟩

/-- A tree without constants and calls whose variables are bound to exact numbers is evaluated to
the exact number that it means, without variables. -/
theorem evaluate_value (scope : Scope) (t : Tree) (q : Rat)
    (hkinds : ∀ s ∈ t.nodes, s.IsArithmetic)
    (hbound : ∀ name ∈ t.variables, ∃ r : Rat, scope.get? name = some (.number (.exact r)))
    (hexponents : ∀ b e x, power ⟨b, e⟩ ∈ t.nodes → e.meaning? scope.interpretation = some x →
      x.num.natAbs ≤ Value.maxExactExponent)
    (hq : t.meaning? scope.interpretation = some q) :
    ∃ c, t.evaluate (some scope) = .ok c ∧ c.variables = [] ∧
      c.plainValue? = .ok (some (.exact q)) ∧ c.numericValue = .ok (.exact q) := by
  obtain ⟨c, hc, hnumeral⟩ := evaluate_isNumeral hkinds hbound hexponents hq
  exact ⟨c, hc, hnumeral.variables, hnumeral.plainValue?, hnumeral.numericValue⟩

/-- `x ^ y / 2` with `x = 3` and `y = -2`. -/
theorem evaluate_value_of_quotient :
    ∃ c, (Tree.term ⟨.one, .exact 2, [⟨.variable "x", .variable "y"⟩], [.placeholder]⟩).evaluate
        (some { bindings := [("x", some (.number (.exact 3))), ("y", some (.number (.exact (-2))))] }) =
          .ok c ∧ c.variables = [] ∧ c.plainValue? = .ok (some (.exact (1 / 18))) ∧
      c.numericValue = .ok (.exact (1 / 18)) := by
  refine evaluate_value _ _ _ ?_ ?_ ?_ ?_
  · simp [nodes, Term.nodes, Factor.nodesOfAll, Factor.nodes, IsArithmetic, Factor.placeholder, one]
  · simp [Tree.variables, nodes, Term.nodes, Factor.nodesOfAll, Factor.nodes, Factor.placeholder,
      one, Scope.get?, List.lookup]
  · intro b e x hmem hx
    simp [nodes, Term.nodes, Factor.nodesOfAll, Factor.nodes, Factor.placeholder, one] at hmem
    rcases hmem with ⟨rfl, rfl⟩ | ⟨rfl, rfl⟩
    · obtain rfl : (-2 : Rat) = x := Option.some.inj hx
      decide
    · obtain rfl : (1 : Rat) = x := Option.some.inj hx
      decide
  · refine Term.meaning?_eq_some.mpr ⟨1, 2, 3 ^ (-2 : Int), 1, rfl, rfl, ?_,
      Factor.product?_side [], by norm_num, by norm_num, by norm_num⟩
    rw [Factor.product?_singleton]
    exact Factor.meaning?_eq_some.mpr ⟨3, -2, rfl, rfl, .inl (by norm_num), rfl⟩

end Tree

end SymbolicAlgebra
