import SymbolicAlgebra.Proofs.Evaluation
import SymbolicAlgebra.Proofs.Undefined

/-!
# Division by zero

A negative power of zero and a term over zero are evaluated to the undefined number if their parts
have values, and a sum that has such terms beside others that have values is undefined as well, as a
number or as a fraction, unless it overflows. Terms with the coefficient zero are left out: they are
evaluated to zero, whatever they are divided by.
-/

namespace SymbolicAlgebra

open Outcome

variable {I : Interpretation} {scope : Scope} {limit n : Nat}

def Factor.DividesByZero (I : Interpretation) : Factor → Prop
  | ⟨base, exponent⟩ => ∃ k : Int,
      base.meaning? I = some 0 ∧ exponent.meaning? I = some (k : Rat) ∧ k < 0

/-- A term over zero. Unless its divisor is zero, its factors have values. -/
def Term.DividesByZero (I : Interpretation) : Term → Prop
  | ⟨multiplier, divisor, top, bottom⟩ => ∃ m d : Rat, multiplier = .exact m ∧
      divisor = .exact d ∧ m ≠ 0 ∧
        (d = 0 ∨ ∃ a, Factor.product? I top = some a ∧ Factor.product? I bottom = some 0)

/-- A tree that divides by zero at its root, or a sum that has terms which do and otherwise terms
with values. -/
def Tree.DividesByZero (I : Interpretation) : Tree → Prop
  | .power f => f.DividesByZero I
  | .term t => t.DividesByZero I
  | .sum terms => (∃ t ∈ terms, t.DividesByZero I) ∧
      ∀ t ∈ terms, t.DividesByZero I ∨ ∃ q, t.meaning? I = some q
  | _ => False

theorem Value.pow_undefined {k : Int} (hk : k < 0) :
    (exact 0).pow (exact k) = .ok undefined := by
  have hneg : (k : Rat) < 0 := by exact_mod_cast hk
  simp [pow, hneg]

theorem Factor.evaluateWith_undefined (hn : Suffices limit n) {f : Factor}
    (hnodes : ∀ s ∈ f.nodes, s.IsEvaluable scope) (hsize : 2 * f.size < limit)
    (hzero : f.DividesByZero scope.interpretation) :
    f.evaluateWith n scope = .ok .undefined := by
  obtain ⟨base, exponent⟩ := f
  obtain ⟨k, hbase, hexponent, hk⟩ := hzero
  obtain ⟨hnodes₁, hnodes₂⟩ := List.forall_mem_append.mp (List.forall_mem_cons.mp hnodes).2
  simp only [Factor.size] at hsize
  obtain ⟨b, hb, hb0⟩ := base.evaluateWith_ok hn hnodes₁ (by omega) hbase
  obtain ⟨e, he, hek⟩ := exponent.evaluateWith_ok hn hnodes₂ (by omega) hexponent
  simp [Factor.evaluateWith, hb, he, hb0.plainValue?, hek.plainValue?, Value.pow_undefined hk,
    Tree.undefined]

namespace Term

theorem evaluateWith_undefined (hn : Suffices limit n) {t : Term}
    (hnodes : ∀ s ∈ t.nodes, s.IsEvaluable scope) (hsize : 2 * t.size < limit)
    (hzero : t.DividesByZero scope.interpretation) :
    t.evaluateWith n scope = .ok .undefined := by
  obtain ⟨_, _, top, bottom⟩ := t
  obtain ⟨m, d, rfl, rfl, hm, hzero⟩ := hzero
  by_cases hd : d = 0
  · simp [Term.evaluateWith, hm, hd]
  · obtain ⟨a, ha, hb⟩ := hzero.resolve_left hd
    obtain ⟨hnodes₁, hnodes₂⟩ := List.forall_mem_append.mp (List.forall_mem_cons.mp hnodes).2
    simp only [Term.size] at hsize
    obtain ⟨xs, hxs, rfl⟩ := Factor.evaluateAllWith_ok hn top hnodes₁ (by omega) ha
    obtain ⟨ys, hys, hprod⟩ := Factor.evaluateAllWith_ok hn bottom hnodes₂ (by omega) hb
    simp [Term.evaluateWith, hm, hd, hxs, hys, -List.map_map, Term.of_numbers m d xs ys, hprod]

theorem IsNumeral.marked {t : Term} {q : Rat} (h : t.IsNumeral q) : t.Marked false := by
  obtain ⟨m, d, hd, -, rfl⟩ := h
  exact ⟨_, d, .exact m, hd, rfl⟩

/-- The terms of a sum are evaluated to fractions of numbers, of which those that divide by zero are
undefined. -/
theorem evaluateAllWith_marked (hn : Suffices limit n) (ts : List Term)
    (hnodes : ∀ s ∈ nodesOfAll ts, s.IsEvaluable scope) (hsize : 2 * sizes ts < limit)
    (hts : ∀ t ∈ ts, t.DividesByZero scope.interpretation ∨
      ∃ q, t.meaning? scope.interpretation = some q) :
    ∃ us b, evaluateAllWith n scope ts = .ok us ∧ AllMarked b us ∧ us.length ≤ sizes ts ∧
      ((∃ t ∈ ts, t.DividesByZero scope.interpretation) → b = true) := by
  induction ts with
  | nil => exact ⟨[], false, rfl, rfl, le_rfl, by simp⟩
  | cons t ts ih =>
    obtain ⟨ht, hts⟩ := List.forall_mem_cons.mp hts
    obtain ⟨hnodes₁, hnodes₂⟩ := List.forall_mem_append.mp hnodes
    simp only [sizes] at hsize ⊢
    obtain ⟨us, b, hus, hmarked, hlength, hb⟩ := ih hnodes₂ (by omega) hts
    obtain ⟨c, u, e, hc, hu, hfirst, he⟩ : ∃ c u e, t.evaluateWith n scope = .ok c ∧
        c.toTerm = .ok u ∧ u.Marked e ∧ (t.DividesByZero scope.interpretation → e = true) := by
      by_cases hzero : t.DividesByZero scope.interpretation
      · exact ⟨.undefined, _, true, evaluateWith_undefined hn hnodes₁ (by omega) hzero, rfl,
          ⟨.undefined, 1, .undefined, one_ne_zero, rfl⟩, fun _ => rfl⟩
      · obtain ⟨q, hq⟩ := ht.resolve_left hzero
        obtain ⟨c, hc, hnumeral⟩ := t.evaluateWith_ok hn hnodes₁ (by omega) hq
        obtain ⟨u, hu, hnumeral⟩ := hnumeral.toTerm
        exact ⟨c, u, false, hc, hu, hnumeral.marked, fun h => absurd h hzero⟩
    have hpos := t.effort_pos
    have hle := t.effort_le_size
    refine ⟨u :: us, e || b, by simp [evaluateAllWith, hc, hu, hus],
      ⟨e, b, hfirst, hmarked, rfl⟩, by simp only [List.length_cons]; omega, ?_⟩
    rintro ⟨s, hs, hzero⟩
    rcases List.mem_cons.mp hs with rfl | hs
    · simp [he hzero]
    · simp [hb ⟨s, hs, hzero⟩]

theorem AllMarked.summed {us : List Term} (hus : AllMarked true us) :
    ∃ ss, summed us = .ok ss ∧ AllMarked true ss ∧ ss.length = us.length := by
  cases us with
  | nil => cases hus
  | cons u us =>
    obtain ⟨ss, hss, hperm⟩ := sorted_ok hus.rank_ok
    exact ⟨ss, hss, hus.perm hperm.symm, hperm.length_eq⟩

end Term

theorem Tree.evaluateWith_sum_marked (hn : SymbolicAlgebra.Suffices limit n) {ts : List Term}
    (hnodes : ∀ s ∈ (Tree.sum ts).nodes, s.IsEvaluable scope)
    (hsize : 2 * (Tree.sum ts).size < limit)
    (hzero : (Tree.sum ts).DividesByZero scope.interpretation) :
    Yields ((Tree.sum ts).evaluateWith n (some scope)) (Tree.Marked true) := by
  obtain ⟨hsome, hall⟩ := hzero
  simp only [Tree.size] at hsize
  obtain ⟨us, b, hus, hmarked, hlength, hb⟩ := Term.evaluateAllWith_marked hn ts
    (fun s hs => hnodes s (List.mem_cons_of_mem _ hs)) (by omega) hall
  obtain rfl := hb hsome
  obtain ⟨ss, hss, hmarked, hlength'⟩ := hmarked.summed
  have hsteps := hn.add_three_le
  simpa [Tree.evaluateWith, hus, hss] using Tree.canonicalWith_sum_marked hmarked (by omega)

theorem Tree.evaluateWith_marked (hn : SymbolicAlgebra.Suffices limit n) {t : Tree}
    (hnodes : ∀ s ∈ t.nodes, s.IsEvaluable scope) (hsize : 2 * t.size < limit)
    (hzero : t.DividesByZero scope.interpretation) :
    (t.isSum = false → t.evaluateWith n (some scope) = .ok .undefined) ∧
      Yields (t.evaluateWith n (some scope)) (Tree.Marked true) := by
  match t, hzero with
  | .power f, hzero =>
    have hrun := Factor.evaluateWith_undefined hn hnodes hsize hzero
    exact ⟨fun _ => hrun, .of_ok hrun .undefined⟩
  | .term t, hzero =>
    have hrun := Term.evaluateWith_undefined hn hnodes hsize hzero
    exact ⟨fun _ => hrun, .of_ok hrun .undefined⟩
  | .sum ts, hzero =>
    exact ⟨by simp [Tree.isSum], Tree.evaluateWith_sum_marked hn hnodes hsize hzero⟩

namespace Tree

/-- A tree without constants and calls whose variables are bound to exact numbers and that divides
by zero is evaluated to the undefined number, unless it is a sum. A sum overflows, or it is
evaluated to an undefined number or fraction. -/
theorem evaluate_of_dividesByZero (scope : Scope) (t : Tree)
    (hkinds : ∀ s ∈ t.nodes, s.IsArithmetic)
    (hbound : ∀ name ∈ t.variables, ∃ r : Rat, scope.get? name = some (.number (.exact r)))
    (hexponents : ∀ b e x, power ⟨b, e⟩ ∈ t.nodes → e.meaning? scope.interpretation = some x →
      x.num.natAbs ≤ Value.maxExactExponent)
    (hzero : t.DividesByZero scope.interpretation) :
    (t.isSum = false → t.evaluate (some scope) = .ok .undefined) ∧
      Yields (t.evaluate (some scope)) (Tree.Marked true) := by
  obtain ⟨n, hn⟩ := exists_suffices (2 * t.size + 1)
  have hrun := evaluateWith_marked hn (isEvaluable_of_mem hkinds hbound hexponents)
    (Nat.lt_succ_self (2 * t.size)) hzero
  have hne : t.evaluateWith n (some scope) ≠ .error .exhausted := by
    rcases hrun.2 with hoverflow | ⟨c, hc, -⟩
    · simp [hoverflow]
    · simp [hc]
  have heq : t.evaluate (some scope) = t.evaluateWith n (some scope) :=
    withinSteps_eq (fun hmn => evaluateWith_approximates hmn t) hne
  rwa [heq]

/-- `1 / x ^ 2` with `x = 0`. -/
theorem evaluate_of_dividesByZero_of_square :
    let t := Tree.term ⟨.one, .one, [.placeholder], [⟨.variable "x", .whole 2⟩]⟩
    let scope : Scope := { bindings := [("x", some (.number (.exact 0)))] }
    (t.isSum = false → t.evaluate (some scope) = .ok .undefined) ∧
      Yields (t.evaluate (some scope)) (Tree.Marked true) := by
  have hnodes : (Tree.term ⟨.one, .one, [.placeholder], [⟨.variable "x", .whole 2⟩]⟩).nodes =
      [.term ⟨.one, .one, [.placeholder], [⟨.variable "x", .whole 2⟩]⟩, .power .placeholder, .one,
        .one, .power ⟨.variable "x", .whole 2⟩, .variable "x", .whole 2] := rfl
  refine evaluate_of_dividesByZero _ _ ?_ ?_ ?_ ⟨1, 1, rfl, rfl, one_ne_zero,
    .inr ⟨1, Factor.product?_side [], ?_⟩⟩
  · rw [hnodes]
    simp [IsArithmetic, one, whole]
  · rw [Tree.variables, hnodes]
    simp [one, whole, Scope.get?, List.lookup]
  · intro b e x hmem hx
    rw [hnodes] at hmem
    simp [Factor.placeholder, one, whole] at hmem
    rcases hmem with ⟨rfl, rfl⟩ | ⟨rfl, rfl⟩
    · obtain rfl : (1 : Rat) = x := Option.some.inj hx
      decide
    · obtain rfl : (2 : Rat) = x := Option.some.inj hx
      decide
  · refine (Factor.product?_singleton _).trans (Factor.meaning?_whole.mpr ⟨0, rfl, ?_, ?_⟩)
    · exact .inr (by decide)
    · norm_num

/-- A term with the coefficient zero is not looked at any further. -/
example : (Tree.term ⟨.zero, .one, [.placeholder], [⟨.variable "x", .one⟩]⟩).evaluateWith 1
    (some { bindings := [("x", some .zero)] }) = .ok .zero := rfl

end Tree

end SymbolicAlgebra
