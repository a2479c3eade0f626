import SymbolicAlgebra.Equation
import SymbolicAlgebra.Proofs.Staging

/-!
# Refuted equations

An equation is written with the sign of inequality if both of its sides simplify to constant trees
of different numbers. The number of a constant tree without symbols is what the tree means, and
simplification keeps the meaning. So the sign tells a real difference: sides that mean the same
number for some values of their variables are written with the sign of equality.
-/

namespace SymbolicAlgebra

open Outcome

mutual

theorem Tree.isConstant_iff : (t : Tree) →
    (t.isConstant = true ↔ ∀ name, .variable name ∉ t.nodes)
  | .number _ | .constant _ | .variable _ => by simp [Tree.isConstant, Tree.nodes]
  | .power f => f.isConstant_iff
  | .term t => t.isConstant_iff
  | .sum ts => by
    simp only [Tree.isConstant, Tree.nodes, List.mem_cons, reduceCtorEq, false_or]
    exact Term.allConstant_iff ts
  | .call _ args => by
    simp only [Tree.isConstant, Tree.nodes, List.mem_cons, reduceCtorEq, false_or]
    exact Tree.allConstant_iff args

theorem Factor.isConstant_iff : (f : Factor) →
    (f.isConstant = true ↔ ∀ name, .variable name ∉ f.nodes)
  | ⟨base, exponent⟩ => by
    simp only [Factor.isConstant, Factor.nodes, Bool.and_eq_true, base.isConstant_iff,
      exponent.isConstant_iff, List.mem_cons, List.mem_append, reduceCtorEq, false_or, not_or,
      forall_and]

theorem Term.isConstant_iff : (t : Term) →
    (t.isConstant = true ↔ ∀ name, .variable name ∉ t.nodes)
  | ⟨_, _, top, bottom⟩ => by
    simp only [Term.isConstant, Term.nodes, Bool.and_eq_true, Factor.allConstant_iff top,
      Factor.allConstant_iff bottom, List.mem_cons, List.mem_append, reduceCtorEq, false_or, not_or,
      forall_and]

theorem Factor.allConstant_iff : (fs : List Factor) →
    (Factor.allConstant fs = true ↔ ∀ name, .variable name ∉ Factor.nodesOfAll fs)
  | [] => by simp [Factor.allConstant, Factor.nodesOfAll]
  | f :: rest => by
    simp only [Factor.allConstant, Factor.nodesOfAll, Bool.and_eq_true, f.isConstant_iff,
      Factor.allConstant_iff rest, List.mem_append, not_or, forall_and]

theorem Term.allConstant_iff : (ts : List Term) →
    (Term.allConstant ts = true ↔ ∀ name, .variable name ∉ Term.nodesOfAll ts)
  | [] => by simp [Term.allConstant, Term.nodesOfAll]
  | t :: rest => by
    simp only [Term.allConstant, Term.nodesOfAll, Bool.and_eq_true, t.isConstant_iff,
      Term.allConstant_iff rest, List.mem_append, not_or, forall_and]

theorem Tree.allConstant_iff : (ts : List Tree) →
    (Tree.allConstant ts = true ↔ ∀ name, .variable name ∉ Tree.nodesOfAll ts)
  | [] => by simp [Tree.allConstant, Tree.nodesOfAll]
  | t :: rest => by
    simp only [Tree.allConstant, Tree.nodesOfAll, Bool.and_eq_true, t.isConstant_iff,
      Tree.allConstant_iff rest, List.mem_append, not_or, forall_and]

end

mutual

/-- The number of a tree that can be evaluated in the empty scope is what the tree means. -/
theorem Tree.numericValue_ok : (t : Tree) → (∀ s ∈ t.nodes, s.IsEvaluable {}) → {q : Rat} →
    t.meaning? (Scope.interpretation {}) = some q → t.numericValue = .ok (.exact q)
  | .number v, _, q, h => by
    obtain rfl := Tree.meaning?_number_eq_some.mp h
    rfl
  | .constant _, hkinds, _, _ | .call _ _, hkinds, _, _ => (hkinds _ (Tree.self_mem_nodes _)).elim
  | .variable name, hkinds, _, _ => by
    obtain ⟨q, hq⟩ := hkinds _ (Tree.self_mem_nodes _)
    cases hq
  | .power f, hkinds, _, h => f.numericValue_ok hkinds h
  | .term t, hkinds, _, h => t.numericValue_ok hkinds h
  | .sum ts, hkinds, _, h => by
    have hterms := Term.numericSum_ok ts (List.forall_mem_cons.mp hkinds).2 0 h
    rwa [zero_add] at hterms

theorem Factor.numericValue_ok : (f : Factor) → (∀ s ∈ f.nodes, s.IsEvaluable {}) → {q : Rat} →
    f.meaning? (Scope.interpretation {}) = some q → f.numericValue = .ok (.exact q)
  | ⟨base, exponent⟩, hkinds, _, h => by
    obtain ⟨x, n, hx, hn, hpow, rfl⟩ := Factor.meaning?_eq_some.mp h
    obtain ⟨hself, hparts⟩ := List.forall_mem_cons.mp hkinds
    obtain ⟨hbase, hexponent⟩ := List.forall_mem_append.mp hparts
    have hbound : n.natAbs ≤ Value.maxExactExponent := by simpa using hself n hn
    simp [Factor.numericValue, base.numericValue_ok hbase hx, exponent.numericValue_ok hexponent hn,
      Value.pow_exact hpow hbound]

theorem Term.numericValue_ok : (t : Term) → (∀ s ∈ t.nodes, s.IsEvaluable {}) → {q : Rat} →
    t.meaning? (Scope.interpretation {}) = some q → t.numericValue = .ok (.exact q)
  | ⟨_, _, top, bottom⟩, hkinds, _, h => by
    obtain ⟨m, d, n, k, rfl, rfl, hn, hk, hd, hk0, rfl⟩ := Term.meaning?_eq_some.mp h
    obtain ⟨htop, hbottom⟩ := List.forall_mem_append.mp (List.forall_mem_cons.mp hkinds).2
    simp [Term.numericValue, Factor.numericProduct_ok top htop m hn,
      Factor.numericProduct_ok bottom hbottom d hk, Value.div_exact _ (mul_ne_zero hd hk0)]

theorem Factor.numericProduct_ok : (fs : List Factor) →
    (∀ s ∈ Factor.nodesOfAll fs, s.IsEvaluable {}) → (v : Rat) → {q : Rat} →
    Factor.product? (Scope.interpretation {}) fs = some q →
    Factor.numericProduct (.exact v) fs = .ok (.exact (v * q))
  | [], _, v, q, h => by
    obtain rfl : (1 : Rat) = q := Option.some.inj h
    simp [Factor.numericProduct]
  | f :: rest, hkinds, v, _, h => by
    obtain ⟨a, b, ha, hb, rfl⟩ := Factor.product?_cons_eq_some.mp h
    obtain ⟨hf, hrest⟩ := List.forall_mem_append.mp hkinds
    simp [Factor.numericProduct, f.numericValue_ok hf ha, Value.mul_exact,
      Factor.numericProduct_ok rest hrest (v * a) hb, mul_assoc]

theorem Term.numericSum_ok : (ts : List Term) →
    (∀ s ∈ Term.nodesOfAll ts, s.IsEvaluable {}) → (v : Rat) → {q : Rat} →
    Term.total? (Scope.interpretation {}) ts = some q →
    Term.numericSum (.exact v) ts = .ok (.exact (v + q))
  | [], _, v, q, h => by
    obtain rfl : (0 : Rat) = q := Option.some.inj h
    simp [Term.numericSum]
  | t :: rest, hkinds, v, _, h => by
    obtain ⟨a, b, ha, hb, rfl⟩ := Term.total?_cons_eq_some.mp h
    obtain ⟨ht, hrest⟩ := List.forall_mem_append.mp hkinds
    simp [Term.numericSum, t.numericValue_ok ht ha, Value.add_exact,
      Term.numericSum_ok rest hrest (v + a) hb, add_assoc]

end

namespace Tree

variable {I : Interpretation} {t : Tree} {q : Rat}

def noSymbols : Vocabulary := ⟨fun _ => False, fun _ => False, fun _ => False⟩

theorem isConstant_simplify {s : Tree} (h : t.simplify = .ok s) (ht : t.isConstant = true) :
    s.isConstant = true := by
  have hvariables := t.isConstant_iff.mp ht
  have hover : t.IsOver ⟨fun _ => False, fun _ => True, fun _ => True⟩ :=
    isOver_iff.mpr ⟨fun name hname => hvariables name (mem_variables.mp hname), fun _ _ => trivial,
      fun _ _ _ => trivial⟩
  exact s.isConstant_iff.mpr fun name hname => simplify_isOver h hover _ hname

/-- What simplification makes of a tree without constants and functions is, if it is constant, of
the number that the tree means. -/
theorem simplify_numericValue (hmoderate : t.Moderate) (hkinds : ∀ s ∈ t.nodes, s.IsArithmetic)
    (hq : t.meaning? I = some q) :
    ∃ s, t.simplify = .ok s ∧ (s.isConstant = true → s.numericValue = .ok (.exact q)) := by
  obtain ⟨s, width, hs, ⟨hmeaning, -⟩, hsimple⟩ := simplify_isSimple hmoderate hq
  refine ⟨s, hs, fun hconstant => ?_⟩
  have hvariables := s.isConstant_iff.mp hconstant
  have hsymbols : ∀ u ∈ s.nodes, u.IsArithmetic := by
    have harithmetic : t.IsOver ⟨fun _ => True, fun _ => False, fun _ => False⟩ := by
      intro u hu
      have hkind := hkinds u hu
      cases u <;> trivial
    intro u hu
    have hadmits := simplify_isOver hs harithmetic u hu
    cases u <;> trivial
  have hover : s.IsOver noSymbols := by
    intro u hu
    have hkind := hsymbols u hu
    match u with
    | .variable name => exact hvariables name hu
    | .constant _ | .call _ _ => exact hkind
    | .number _ | .power _ | .term _ | .sum _ => trivial
  have hq' : s.meaning? (Scope.interpretation {}) = some q := by
    rw [← hmeaning.trans hq]
    exact s.meaning?_congr ⟨fun _ => False.elim, fun _ => False.elim, fun _ => False.elim⟩ hover
  refine s.numericValue_ok (isEvaluable_of_mem hsymbols (fun name hname => ?_)
    hsimple.fits.exponents) hq'
  exact absurd (mem_variables.mp hname) (hvariables name)

end Tree

namespace Equation

/-- An equation of two trees without constants and functions that mean `p` and `q` for some values
of the variables is written with the sign of inequality exactly if both sides simplify to constant
trees and `p` is not `q`. -/
theorem text_of_meanings (I : Interpretation) (e : Equation) (p q : Rat) {left right : String}
    (hmoderate : e.left.Moderate ∧ e.right.Moderate)
    (hkinds : ∀ s ∈ e.left.nodes ++ e.right.nodes, s.IsArithmetic)
    (hp : e.left.meaning? I = some p) (hq : e.right.meaning? I = some q)
    (hleft : e.left.text = .ok left) (hright : e.right.text = .ok right) :
    ∃ l r, e.left.simplify = .ok l ∧ e.right.simplify = .ok r ∧
      e.text = .ok (left ++
        (if l.isConstant = true ∧ r.isConstant = true ∧ p ≠ q then " ≠ " else " = ") ++ right) := by
  obtain ⟨hkindsLeft, hkindsRight⟩ := List.forall_mem_append.mp hkinds
  obtain ⟨l, hl, hlp⟩ := Tree.simplify_numericValue hmoderate.1 hkindsLeft hp
  obtain ⟨r, hr, hrq⟩ := Tree.simplify_numericValue hmoderate.2 hkindsRight hq
  refine ⟨l, r, hl, hr, ?_⟩
  have hrefuted : e.isRefuted =
      .ok (decide (l.isConstant = true ∧ r.isConstant = true ∧ p ≠ q)) := by
    by_cases hconstant : l.isConstant = true ∧ r.isConstant = true
    · obtain ⟨hlc, hrc⟩ := hconstant
      simp [isRefuted, hl, hr, hlc, hrc, hlp hlc, hrq hrc]
    · have hfalse : (l.isConstant && r.isConstant) = false := by
        simpa using fun hlc hrc => hconstant ⟨hlc, hrc⟩
      have hdecide : ¬ (l.isConstant = true ∧ r.isConstant = true ∧ p ≠ q) :=
        fun h => hconstant ⟨h.1, h.2.1⟩
      simp only [isRefuted, hl, hr, ok_bind, hfalse, decide_eq_false hdecide]
      rfl
  simp [text, hrefuted, hleft, hright]

/-- `6 / 4` and `2`. -/
theorem text_of_meanings_of_numbers :
    (⟨.term ⟨.exact 6, .exact 4, [.placeholder], [.placeholder]⟩, .whole 2⟩ : Equation).text =
      .ok "6/4 ≠ 2" := by
  let e : Equation := ⟨.term ⟨.exact 6, .exact 4, [.placeholder], [.placeholder]⟩, .whole 2⟩
  let I : Interpretation := ⟨fun _ => 0, fun _ => 0, fun _ _ => none⟩
  have hnodes : e.left.nodes = [e.left, .power Factor.placeholder, .one, .one,
      .power Factor.placeholder, .one, .one] := rfl
  have hside : ∀ f ∈ [Factor.placeholder], (Tree.power f).Moderate :=
    List.forall_mem_singleton.mpr Tree.moderate_placeholder
  have hmoderate : e.left.Moderate := Tree.moderate_term hside hside (by decide)
  have hmeaning : e.left.meaning? I = some (3 / 2) :=
    Term.meaning?_eq_some.mpr ⟨6, 4, 1, 1, rfl, rfl, Factor.product?_side [],
      Factor.product?_side [], by norm_num, by norm_num, by norm_num⟩
  have hkinds : ∀ s ∈ e.left.nodes ++ e.right.nodes, s.IsArithmetic := by
    rw [hnodes]
    simp [e, Tree.nodes, Tree.whole, Tree.IsArithmetic, Tree.one]
  have hleft : e.left.text = .ok "6/4" := by cbv
  have hright : e.right.text = .ok "2" := by cbv
  have hmoderate' : e.right.Moderate := Tree.moderate_number _
  obtain ⟨l, r, hl, hr, htext⟩ := text_of_meanings I e (3 / 2) 2 ⟨hmoderate, hmoderate'⟩ hkinds
    hmeaning rfl hleft hright
  rw [htext, if_pos ⟨Tree.isConstant_simplify hl rfl, Tree.isConstant_simplify hr rfl, by norm_num⟩]
  rfl

end Equation

end SymbolicAlgebra
