import SymbolicAlgebra.Proofs.Evaluation
import SymbolicAlgebra.Proofs.Pieces
import SymbolicAlgebra.Proofs.Symbols

/-!
# Evaluation in stages

A scope that binds some of the variables of a tree leaves a tree in the others, which a second scope
evaluates to the number that both scopes together evaluate the tree to. What is left after the first
stage means what the tree means, its exponents are whole, its degree is no higher and its effort is
bounded by the size of the tree, so that simplification on the way never fails.
-/

namespace SymbolicAlgebra

open Outcome

namespace Scope

/-- The bindings of one scope and then those of another. -/
def union (s₁ s₂ : Scope) : Scope := { s₁ with bindings := s₁.bindings ++ s₂.bindings }

/-- What has a value has an exact number as its value. -/
def BindsNumbers (s : Scope) : Prop :=
  ∀ name t, s.get? name = some t → ∃ r : Rat, t = .number (.exact r)

theorem mem_names_of_lookup {s : Scope} {name : String} {value : Option Tree}
    (h : s.bindings.lookup name = some value) : name ∈ s.names := by
  obtain ⟨l, l', hl, -⟩ := List.lookup_eq_some_iff.mp h
  simp [names, hl]

theorem get?_eq_none {s : Scope} {name : String} (h : name ∉ s.names) : s.get? name = none :=
  Option.eq_none_iff_forall_ne_some.mpr fun _ ht =>
    h (mem_names_of_lookup (Option.join_eq_some_iff.mp ht))

theorem get?_union {s₁ s₂ : Scope} (hdisjoint : s₁.names.Disjoint s₂.names) (name : String) :
    (s₁.union s₂).get? name = (s₁.get? name).or (s₂.get? name) := by
  simp only [get?, union, List.lookup_append]
  cases h₁ : s₁.bindings.lookup name with
  | none => rfl
  | some value =>
    have h₂ : s₂.get? name = none := get?_eq_none (hdisjoint (mem_names_of_lookup h₁))
    simp only [get?] at h₂
    simp [h₂]

end Scope

/-- The variables that a scope binds are bound to the numbers that they mean. -/
def Interpretation.Satisfies (I : Interpretation) (s : Scope) : Prop :=
  ∀ name t, s.get? name = some t → t = .number (.exact (I.ofVariable name))

variable {I : Interpretation} {scope : Scope} {n width limit : Nat}

/-- What evaluation leaves of a tree with a value. -/
def Tree.EvaluatesIn (I : Interpretation) (degree bound : Nat) (q : Rat)
    (outcome : Except Fault Tree) : Prop :=
  ∃ c, outcome = .ok c ∧ c.Stands I Tree.normalWidth degree c.effort q ∧ c.effort < bound

mutual

theorem Tree.evaluateWith_stands (hI : I.Satisfies scope)
    (h : Canonizes I width limit (Tree.canonicalWith n)) :
    (t : Tree) → {q : Rat} → t.size ≤ width → 4 * t.size ≤ limit →
    (∀ s ∈ t.nodes, s.IsArithmetic) → t.Fits 0 width → t.meaning? I = some q →
    Tree.EvaluatesIn I (t.degree 0) (4 * t.size) q (t.evaluateWith n (some scope))
  | .number v, q, _, _, _, _, hq =>
    ⟨_, rfl, ⟨hq, Tree.fits_number v, le_rfl, le_rfl⟩, by simp [Tree.effort, Tree.size]⟩
  | .constant c, q, _, _, hkinds, _, _ => (hkinds _ (Tree.self_mem_nodes _)).elim
  | .variable name, q, _, _, _, _, hq => by
    simp only [Tree.evaluateWith, Option.bind_some]
    cases hget : scope.get? name with
    | none =>
      exact ⟨_, rfl, ⟨hq, Tree.fits_variable name, le_rfl, le_rfl⟩,
        by simp [Tree.effort, Tree.size]⟩
    | some u =>
      obtain rfl := hI name u hget
      exact ⟨_, rfl, ⟨hq, Tree.fits_number _, Nat.zero_le _, le_rfl⟩,
        by simp [Tree.effort, Tree.size]⟩
  | .power f, q, hwidth, hlimit, hkinds, hfits, hq =>
    f.evaluateWith_stands hI h hwidth hlimit hkinds hfits hq
  | .term t, q, hwidth, hlimit, hkinds, hfits, hq => by
    obtain ⟨c, hc, hstands, hlt⟩ := t.evaluateWith_stands hI h hwidth hlimit hkinds hfits hq
    exact ⟨c, hc, hstands, hlt.trans_le (Nat.sub_le _ _)⟩
  | .sum ts, q, hwidth, hlimit, hkinds, hfits, hq => by
    obtain ⟨hdegree, hterms⟩ := Tree.fits_sum.mp hfits
    simp only [Tree.size] at hwidth hlimit ⊢
    obtain ⟨us, hus, htotal, hslim, heffort⟩ := Term.evaluateAllWith_slim hI h ts (by omega)
      (by omega) (fun s hs => hkinds s (List.mem_cons_of_mem _ hs)) hterms hq
    have hhighest : Term.highestDegree 0 ts ≤ (Tree.sum ts).degree 0 := le_max_right _ _
    obtain ⟨c, hc, -, hstands⟩ := h.sum_ok hslim htotal (hhighest.trans hdegree) (by omega)
    have hbound := hstands.effort_le
    refine ⟨c, by simpa [Tree.evaluateWith, hus] using hc, ?_, by omega⟩
    exact ⟨hstands.meaning, hstands.fits, hstands.degree_le.trans hhighest, le_rfl⟩
  | .call f args, q, _, _, hkinds, _, _ => (hkinds _ (Tree.self_mem_nodes _)).elim

theorem Factor.evaluateWith_stands (hI : I.Satisfies scope)
    (h : Canonizes I width limit (Tree.canonicalWith n)) :
    (f : Factor) → {q : Rat} → f.size ≤ width → 4 * f.size ≤ limit →
    (∀ s ∈ f.nodes, s.IsArithmetic) → (Tree.power f).Fits 0 width → f.meaning? I = some q →
    Tree.EvaluatesIn I (f.degree 0) (4 * f.size) q (f.evaluateWith n (some scope))
  | ⟨base, exponent⟩, q, hwidth, hlimit, hkinds, hfits, hq => by
    obtain ⟨hdegree, ⟨k, hk, rfl⟩, hbase⟩ := Tree.fits_power.mp hfits
    obtain ⟨x, hx, hxk, rfl⟩ := Factor.meaning?_whole.mp hq
    simp only [Factor.size] at hwidth hlimit ⊢
    have hkinds' : ∀ s ∈ base.nodes, s.IsArithmetic :=
      fun s hs => hkinds s (List.mem_cons_of_mem _ (List.mem_append_left _ hs))
    obtain ⟨b, hb, hstands, hlt⟩ :=
      base.evaluateWith_stands hI h (by omega) (by omega) hkinds' hbase hx
    obtain ⟨r, hr⟩ := b.plainValue?_fits hstands.fits hstands.meaning
    have hwhole : (Tree.whole k).evaluateWith n (some scope) = .ok (.whole k) := rfl
    have hplain : (Tree.whole k).plainValue? = .ok (some (.exact k)) := rfl
    cases r with
    | some v =>
      obtain rfl := b.plainValue?_sound hr hstands.meaning
      refine ⟨.number (.exact (x ^ k)), ?_, ⟨rfl, Tree.fits_number _, Nat.zero_le _, le_rfl⟩, ?_⟩
      · simp [Factor.evaluateWith, hb, hwhole, hr, hplain, Value.pow_exact hxk hk]
      · simp only [Tree.effort]
        omega
    | none =>
      have hpower : (Tree.power ⟨b, .whole k⟩).degree 1 ≤ Factor.degree 0 ⟨base, .whole k⟩ := by
        simpa [Tree.degree, Factor.degree] using Nat.mul_le_mul_left k.natAbs hstands.degree_le
      refine ⟨.power ⟨b, .whole k⟩, by simp [Factor.evaluateWith, hb, hwhole, hr, hplain],
        ⟨?_, ?_, hpower, le_rfl⟩, ?_⟩
      · exact Factor.meaning?_whole.mpr ⟨x, hstands.meaning, hxk, rfl⟩
      · exact Tree.fits_power.mpr ⟨hpower.trans hdegree, ⟨k, hk, rfl⟩, hstands.fits⟩
      · simp only [Tree.effort, Factor.effort]
        omega

/-- The effort leaves room for a term that is made of the outcome. -/
theorem Term.evaluateWith_stands (hI : I.Satisfies scope)
    (h : Canonizes I width limit (Tree.canonicalWith n)) :
    (t : Term) → {q : Rat} → t.size ≤ width → 4 * t.size ≤ limit →
    (∀ s ∈ t.nodes, s.IsArithmetic) → (Tree.term t).Fits 0 width → t.meaning? I = some q →
    Tree.EvaluatesIn I (t.degree 0) (4 * t.size - 1) q (t.evaluateWith n (some scope))
  | ⟨multiplier, divisor, top, bottom⟩, q, hwidth, hlimit, hkinds, hfits, hq => by
    obtain ⟨m, d, a, k, rfl, rfl, ha, hk, hd0, hk0, rfl⟩ := Term.meaning?_eq_some.mp hq
    simp only [Term.size] at hwidth hlimit ⊢
    by_cases hm0 : m = 0
    · subst hm0
      refine ⟨.zero, by simp [Term.evaluateWith],
        ⟨?_, Tree.fits_number _, Nat.zero_le _, le_rfl⟩, ?_⟩
      · simp [Tree.zero, Value.zero]
      · simp only [Tree.zero, Tree.effort]
        omega
    obtain ⟨hdegree, -, hfactors⟩ := Tree.fits_term.mp hfits
    have hmax : Factor.totalDegree 0 top + Factor.totalDegree 0 bottom ≤ Value.maxExactExponent :=
      hdegree
    obtain ⟨hkinds₁, hkinds₂⟩ := List.forall_mem_append.mp (List.forall_mem_cons.mp hkinds).2
    obtain ⟨hfits₁, hfits₂⟩ := List.forall_mem_append.mp hfactors
    obtain ⟨xs, hxs, hproduct, hfit, hdegree₁, hlength⟩ :=
      Factor.evaluateAllWith_fits hI h top (by omega) (by omega) hkinds₁ hfits₁ ha
    obtain ⟨ys, hys, hproduct', hfit', hdegree₂, hlength'⟩ :=
      Factor.evaluateAllWith_fits hI h bottom (by omega) (by omega) hkinds₂ hfits₂ hk
    have hwidth' := h.width_ge
    obtain ⟨effort, heffort⟩ : ∃ effort,
        1 + 4 * Factor.sizes top + 4 * Factor.sizes bottom = effort := ⟨_, rfl⟩
    have hfit₁ : Factor.AllFit width effort (xs.map Tree.toFactor) :=
      fun f hf => ⟨(hfit f hf).1.mono le_rfl hwidth', (hfit f hf).2.trans (by omega)⟩
    have hfit₂ : Factor.AllFit width effort (ys.map Tree.toFactor) :=
      fun f hf => ⟨(hfit' f hf).1.mono le_rfl hwidth', (hfit' f hf).2.trans (by omega)⟩
    obtain ⟨u, hu, huq, hslim, hle⟩ := Term.of_fits (m := m) (d := d) (by omega) hfit₁ hfit₂
      (by omega) hproduct hproduct' hd0 hk0
    have hlengths := Factor.length_le_sizes top
    have hlengths' := Factor.length_le_sizes bottom
    obtain ⟨c, hc, -, hstands⟩ := h.term_ok (hslim.mono le_rfl (Nat.add_le_add hdegree₁ hdegree₂))
      huq (by simp only [List.length_map]; omega) hmax (by omega)
    have hbound := hstands.effort_le
    refine ⟨c, ?_, ⟨hstands.meaning, hstands.fits, hstands.degree_le, le_rfl⟩, by omega⟩
    have hnonzero : ∀ {t : Term} {q : Rat}, t.meaning? I = some q → t.divisor.isZero = false := by
      intro t q ht
      obtain ⟨-, d, -, -, -, hd, -, -, hd0, -⟩ := Term.meaning?_eq_some.mp ht
      simp [hd, hd0]
    cases c with
    | term t =>
      simp [Term.evaluateWith, hm0, hd0, hxs, hys, -List.map_map, hu, hnonzero huq, hc,
        hnonzero hstands.meaning]
    | _ => simp [Term.evaluateWith, hm0, hd0, hxs, hys, -List.map_map, hu, hnonzero huq, hc]

theorem Factor.evaluateAllWith_fits (hI : I.Satisfies scope)
    (h : Canonizes I width limit (Tree.canonicalWith n)) :
    (fs : List Factor) → {q : Rat} → Factor.sizes fs ≤ width → 4 * Factor.sizes fs ≤ limit →
    (∀ s ∈ Factor.nodesOfAll fs, s.IsArithmetic) → (∀ f ∈ fs, (Tree.power f).Fits 0 width) →
    Factor.product? I fs = some q →
    ∃ cs, Factor.evaluateAllWith n (some scope) fs = .ok cs ∧
      Factor.product? I (cs.map Tree.toFactor) = some q ∧
      Factor.AllFit Tree.normalWidth (4 * Factor.sizes fs) (cs.map Tree.toFactor) ∧
      Factor.totalDegree 1 (cs.map Tree.toFactor) ≤ Factor.totalDegree 0 fs ∧
      cs.length = fs.length
  | [], q, _, _, _, _, hq => ⟨[], rfl, hq, by simp [Factor.AllFit], le_rfl, rfl⟩
  | f :: rest, q, hwidth, hlimit, hkinds, hfits, hq => by
    obtain ⟨x, y, hx, hy, rfl⟩ := Factor.product?_cons_eq_some.mp hq
    obtain ⟨hkind, hkinds⟩ := List.forall_mem_append.mp hkinds
    obtain ⟨hfit, hfits⟩ := List.forall_mem_cons.mp hfits
    simp only [Factor.sizes] at hwidth hlimit ⊢
    obtain ⟨c, hc, hstands, hlt⟩ :=
      f.evaluateWith_stands hI h (by omega) (by omega) hkind hfit hx
    obtain ⟨cs, hcs, hproduct, hallfit, hdegree, hlength⟩ :=
      Factor.evaluateAllWith_fits hI h rest (by omega) (by omega) hkinds hfits hy
    obtain ⟨hfirst, hfirstDegree⟩ := Tree.toFactor_fits hstands.fits
    refine ⟨c :: cs, by simp [Factor.evaluateAllWith, hc, hcs], ?_, ?_, ?_, by simp [hlength]⟩
    · exact Factor.product?_cons_eq_some.mpr
        ⟨x, y, (Tree.toFactor_meaning c).trans hstands.meaning, hproduct, rfl⟩
    · exact (hfirst.mono (by omega)).append (hallfit.mono (by omega))
    · simp only [List.map_cons, Factor.totalDegree, hfirstDegree]
      exact Nat.add_le_add hstands.degree_le hdegree

theorem Term.evaluateAllWith_slim (hI : I.Satisfies scope)
    (h : Canonizes I width limit (Tree.canonicalWith n)) :
    (ts : List Term) → {q : Rat} → Term.sizes ts ≤ width → 4 * Term.sizes ts ≤ limit →
    (∀ s ∈ Term.nodesOfAll ts, s.IsArithmetic) → (∀ t ∈ ts, (Tree.term t).Fits 0 width) →
    Term.total? I ts = some q →
    ∃ us, Term.evaluateAllWith n (some scope) ts = .ok us ∧ Term.total? I us = some q ∧
      (∀ u ∈ us, u.IsSlim Tree.normalWidth Tree.normalWidth (Term.highestDegree 0 ts)) ∧
      Term.totalEffort us ≤ 4 * Term.sizes ts
  | [], q, _, _, _, _, hq => ⟨[], rfl, hq, by simp, Nat.zero_le _⟩
  | t :: rest, q, hwidth, hlimit, hkinds, hfits, hq => by
    obtain ⟨x, y, hx, hy, rfl⟩ := Term.total?_cons_eq_some.mp hq
    obtain ⟨hkind, hkinds⟩ := List.forall_mem_append.mp hkinds
    obtain ⟨hfit, hfits⟩ := List.forall_mem_cons.mp hfits
    simp only [Term.sizes] at hwidth hlimit ⊢
    obtain ⟨c, hc, hstands, hlt⟩ :=
      t.evaluateWith_stands hI h (by omega) (by omega) hkind hfit hx
    obtain ⟨u, hu, huq, hslim, heffort⟩ :=
      Tree.toTerm_slim (by decide) hstands.fits hstands.meaning
    obtain ⟨us, hus, htotal, hslims, hefforts⟩ :=
      Term.evaluateAllWith_slim hI h rest (by omega) (by omega) hkinds hfits hy
    refine ⟨u :: us, by simp [Term.evaluateAllWith, hc, hu, hus], ?_, ?_, ?_⟩
    · exact Term.total?_cons_eq_some.mpr ⟨x, y, huq, htotal, rfl⟩
    · refine List.forall_mem_cons.mpr ⟨hslim.mono le_rfl ?_, fun v hv => ?_⟩
      · exact hstands.degree_le.trans (le_max_left _ _)
      · exact (hslims v hv).mono le_rfl (le_max_right _ _)
    · simp only [Term.totalEffort]
      omega

end

namespace Tree

/-- The exponents of what is left after a stage are whole. -/
theorem Fits.exponents {t : Tree} {least : Nat} (h : t.Fits least width) :
    ∀ b e x, power ⟨b, e⟩ ∈ t.nodes → e.meaning? I = some x →
      x.num.natAbs ≤ Value.maxExactExponent := by
  intro b e x hmem hx
  obtain ⟨-, -, k, hk, rfl⟩ := h _ hmem
  obtain rfl : (k : Rat) = x := Option.some.inj hx
  simpa using hk

theorem evaluate_stands {t : Tree} {q : Rat} (hI : I.Satisfies scope)
    (hkinds : ∀ s ∈ t.nodes, s.IsArithmetic) (hmoderate : t.Moderate) (hq : t.meaning? I = some q) :
    ∃ c, t.evaluate (some scope) = .ok c ∧ c.Stands I normalWidth (t.degree 0) c.effort q := by
  obtain ⟨n, hn⟩ : ∃ n, 4 * t.size + Term.enoughSteps
      (max t.size (Value.maxExactExponent + 2)) (4 * t.size) ≤ n := ⟨_, le_rfl⟩
  obtain ⟨c, hc, hstands, -⟩ := t.evaluateWith_stands hI
    (canonizes_canonicalWith (le_max_right t.size _) hn) (le_max_left _ _) le_rfl hkinds
    hmoderate.fits hq
  exact ⟨c, withinSteps_ok (fun hmn => t.evaluateWith_approximates hmn) hc, hstands⟩

/-- The variables of a tree for which a scope has no value. -/
def unbound (t : Tree) (s : Scope) : Vocabulary where
  hasVariable name := name ∈ t.variables ∧ s.get? name = none
  hasConstant _ := False
  hasFunction _ := False

theorem evaluate_unbound {t c : Tree} (hkinds : ∀ s ∈ t.nodes, s.IsArithmetic)
    (hnumbers : scope.BindsNumbers) (hc : t.evaluate (some scope) = .ok c) :
    c.IsOver (t.unbound scope) := by
  refine evaluate_isOver hc (fun name hname => ?_) (fun _ k hk => ?_) (fun f args hf => ?_)
  · cases hget : scope.get? name with
    | none => simpa [IsOver, nodes, hget] using ⟨hname, hget⟩
    | some u =>
      obtain ⟨r, rfl⟩ := hnumbers name u hget
      simp [IsOver, nodes, hget, Vocabulary.Admits]
  · exact hkinds _ (mem_constants.mp hk)
  · exact hkinds _ hf

theorem IsOver.isArithmetic {t c : Tree} (h : c.IsOver (t.unbound scope)) :
    ∀ s ∈ c.nodes, s.IsArithmetic := by
  intro s hs
  have hadmits := h s hs
  cases s with
  | constant _ | call _ _ => exact hadmits
  | _ => trivial

end Tree

namespace Scope

variable {s₁ s₂ : Scope} (hdisjoint : s₁.names.Disjoint s₂.names)
include hdisjoint

theorem satisfies_left (h : s₁.BindsNumbers) : (s₁.union s₂).interpretation.Satisfies s₁ := by
  intro name t ht
  obtain ⟨r, rfl⟩ := h name t ht
  have hget : (s₁.union s₂).get? name = some (.number (.exact r)) := by
    rw [get?_union hdisjoint, ht]
    rfl
  simp [interpretation, number?_eq_some.mpr hget]

/-- Under both scopes together a variable that is unbound in the first means what it means under the
second. -/
theorem agrees_right (t : Tree) :
    (s₁.union s₂).interpretation.AgreesOn (t.unbound s₁) s₂.interpretation := by
  refine ⟨fun name hname => ?_, fun _ => False.elim, fun _ => False.elim⟩
  simp [interpretation, number?, get?_union hdisjoint, hname.2]

theorem union_binds {name : String} (hs₁ : s₁.BindsNumbers) (hs₂ : s₂.BindsNumbers)
    (h : ∃ u, s₁.get? name = some u ∨ s₂.get? name = some u) :
    ∃ r : Rat, (s₁.union s₂).get? name = some (.number (.exact r)) := by
  rw [get?_union hdisjoint]
  cases h₁ : s₁.get? name with
  | some u =>
    obtain ⟨r, rfl⟩ := hs₁ name u h₁
    exact ⟨r, rfl⟩
  | none =>
    obtain ⟨u, hu⟩ := h
    have hu := hu.resolve_left (by simp [h₁])
    obtain ⟨r, rfl⟩ := hs₂ name u hu
    exact ⟨r, hu⟩

end Scope

namespace Tree

/-- A tree of whole exponents and moderate degree, whose variables are bound to exact numbers by two
scopes that share none, is evaluated in two stages to the number that it means, as it is at once. -/
theorem evaluate_in_stages (s₁ s₂ : Scope) (t : Tree) (q : Rat)
    (hkinds : ∀ s ∈ t.nodes, s.IsArithmetic) (hmoderate : t.Moderate)
    (hs₁ : s₁.BindsNumbers) (hs₂ : s₂.BindsNumbers) (hdisjoint : s₁.names.Disjoint s₂.names)
    (hbound : ∀ name ∈ t.variables, ∃ u, s₁.get? name = some u ∨ s₂.get? name = some u)
    (hq : t.meaning? (s₁.union s₂).interpretation = some q) :
    ∃ c d e, t.evaluate (some s₁) = .ok c ∧ c.evaluate (some s₂) = .ok d ∧
      d.plainValue? = .ok (some (.exact q)) ∧ t.evaluate (some (s₁.union s₂)) = .ok e ∧
      e.plainValue? = .ok (some (.exact q)) := by
  have hunion name (hname : name ∈ t.variables) :=
    Scope.union_binds hdisjoint hs₁ hs₂ (hbound name hname)
  obtain ⟨e, he, hatOnce⟩ := evaluate_isNumeral hkinds hunion hmoderate.fits.exponents hq
  -- the first stage
  obtain ⟨c, hc, hstands⟩ :=
    evaluate_stands (Scope.satisfies_left hdisjoint hs₁) hkinds hmoderate hq
  have hover := evaluate_unbound hkinds hs₁ hc
  -- what it leaves for the second stage
  have hbound' : ∀ name ∈ c.variables, ∃ r : Rat, s₂.get? name = some (.number (.exact r)) := by
    intro name hname
    obtain ⟨hmem, h₁⟩ := hover.of_mem_variables hname
    obtain ⟨r, hr⟩ := hunion name hmem
    exact ⟨r, by simpa [Scope.get?_union hdisjoint, h₁] using hr⟩
  have hmeaning : c.meaning? s₂.interpretation = some q :=
    (c.meaning?_congr (Scope.agrees_right hdisjoint t) hover).symm.trans hstands.meaning
  obtain ⟨d, hd, hstaged⟩ :=
    evaluate_isNumeral hover.isArithmetic hbound' hstands.fits.exponents hmeaning
  exact ⟨c, d, e, hc, hd, hstaged.plainValue?, he, hatOnce.plainValue?⟩

/-- `x ^ 2 / y` with `x = 3` and then `y = 2`. -/
theorem evaluate_in_stages_of_quotient :
    let t : Tree := .term ⟨.one, .one, [⟨.variable "x", .whole 2⟩], [⟨.variable "y", .whole 1⟩]⟩
    let s₁ : Scope := { bindings := [("x", some (.number (.exact 3)))] }
    let s₂ : Scope := { bindings := [("y", some (.number (.exact 2)))] }
    ∃ c d e, t.evaluate (some s₁) = .ok c ∧ c.evaluate (some s₂) = .ok d ∧
      d.plainValue? = .ok (some (.exact (9 / 2))) ∧ t.evaluate (some (s₁.union s₂)) = .ok e ∧
      e.plainValue? = .ok (some (.exact (9 / 2))) := by
  intro t s₁ s₂
  have hnodes : t.nodes = [t, .power ⟨.variable "x", .whole 2⟩, .variable "x", .whole 2,
      .power ⟨.variable "y", .whole 1⟩, .variable "y", .whole 1] := rfl
  have hmoderate : t.Moderate := moderate_term
    (List.forall_mem_singleton.mpr ((moderate_variable "x").power (by decide) (by decide)))
    (List.forall_mem_singleton.mpr ((moderate_variable "y").power (by decide) (by decide)))
    (by decide)
  have hbinds : ∀ (x : String) (r : Rat),
      Scope.BindsNumbers { bindings := [(x, some (.number (.exact r)))] } := by
    intro x r name u hu
    obtain ⟨l, l', hl, -⟩ := List.lookup_eq_some_iff.mp (Option.join_eq_some_iff.mp hu)
    have hmem : (name, some u) ∈ [(x, some (number (.exact r)))] := by
      rw [show [(x, some (number (.exact r)))] = l ++ (name, some u) :: l' from hl]
      simp
    obtain ⟨-, hu⟩ := Prod.mk.inj (List.mem_singleton.mp hmem)
    exact ⟨r, Option.some.inj hu⟩
  have hmeaning : t.meaning? (s₁.union s₂).interpretation = some (9 / 2) := by
    have hx : Factor.meaning? (s₁.union s₂).interpretation ⟨.variable "x", .whole 2⟩ =
        some (3 ^ (2 : Int)) :=
      Factor.meaning?_whole.mpr ⟨3, rfl, .inl (by norm_num), rfl⟩
    have hy : Factor.meaning? (s₁.union s₂).interpretation ⟨.variable "y", .whole 1⟩ =
        some (2 ^ (1 : Int)) :=
      Factor.meaning?_whole.mpr ⟨2, rfl, .inl (by norm_num), rfl⟩
    exact Term.meaning?_eq_some.mpr ⟨1, 1, _, _, rfl, rfl, (Factor.product?_singleton _).trans hx,
      (Factor.product?_singleton _).trans hy, by norm_num, by norm_num, by norm_num⟩
  refine evaluate_in_stages s₁ s₂ t (9 / 2) ?_ hmoderate (hbinds "x" 3) (hbinds "y" 2) ?_ ?_
    hmeaning
  · rw [hnodes]
    simp [IsArithmetic, t, whole]
  · simp [s₁, s₂, Scope.names]
  · have hvariables : t.variables = ["x", "y"] := rfl
    rw [hvariables]
    simp only [List.forall_mem_cons]
    exact ⟨⟨_, .inl rfl⟩, ⟨_, .inr rfl⟩, by simp⟩

end Tree

end SymbolicAlgebra
