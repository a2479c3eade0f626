import SymbolicAlgebra.Proofs.Simplification

/-!
# Exactness

A tree is exact if all its numbers are, exponents and coefficients included. Whatever has a meaning
is exact, since a double means no rational number. So a tree whose meaning simplification keeps is
simplified to an exact tree: with whole exponents and degrees at which powers are computed exactly,
no double, no infinity and no undefined value comes in. The coefficients of its terms are then in
lowest terms.
-/

namespace SymbolicAlgebra

open Outcome

mutual

/-- All numbers of a tree are exact. -/
def Tree.IsExact : Tree → Prop
  | .number v => v.isExact = true
  | .constant _ | .variable _ => True
  | .power f => f.IsExact
  | .term t => t.IsExact
  | .sum terms => Term.AllExact terms
  | .call _ args => Tree.AllExact args

def Factor.IsExact : Factor → Prop
  | ⟨base, exponent⟩ => base.IsExact ∧ exponent.IsExact

def Term.IsExact : Term → Prop
  | ⟨multiplier, divisor, top, bottom⟩ =>
    multiplier.isExact = true ∧ divisor.isExact = true ∧ Factor.AllExact top ∧
      Factor.AllExact bottom

def Factor.AllExact : List Factor → Prop
  | [] => True
  | f :: rest => f.IsExact ∧ Factor.AllExact rest

def Term.AllExact : List Term → Prop
  | [] => True
  | t :: rest => t.IsExact ∧ Term.AllExact rest

def Tree.AllExact : List Tree → Prop
  | [] => True
  | t :: rest => t.IsExact ∧ Tree.AllExact rest

end

variable {I : Interpretation}

theorem Value.isExact_of_rational? {v : Value} {q : Rat} (h : v.rational? = some q) :
    v.isExact = true := by
  rw [Value.rational?_eq_some.mp h]
  rfl

mutual

theorem Tree.isExact_of_meaning : (t : Tree) → {q : Rat} → t.meaning? I = some q → t.IsExact
  | .number _, _, h => Value.isExact_of_rational? h
  | .constant _, _, _ | .variable _, _, _ => trivial
  | .power f, _, h => f.isExact_of_meaning h
  | .term t, _, h => t.isExact_of_meaning h
  | .sum terms, _, h => Term.allExact_of_total terms h
  | .call _ args, _, h => by
    obtain ⟨qs, hqs, -⟩ := Option.bind_eq_some_iff.mp h
    exact Tree.allExact_of_meanings args hqs

theorem Factor.isExact_of_meaning : (f : Factor) → {q : Rat} → f.meaning? I = some q → f.IsExact
  | ⟨base, exponent⟩, _, h => by
    obtain ⟨b, n, hb, he, -, -⟩ := Factor.meaning?_eq_some.mp h
    exact ⟨base.isExact_of_meaning hb, exponent.isExact_of_meaning he⟩

theorem Term.isExact_of_meaning : (t : Term) → {q : Rat} → t.meaning? I = some q → t.IsExact
  | ⟨_, _, top, bottom⟩, _, h => by
    obtain ⟨m, d, n, k, rfl, rfl, hn, hk, -, -, -⟩ := Term.meaning?_eq_some.mp h
    exact ⟨rfl, rfl, Factor.allExact_of_product top hn, Factor.allExact_of_product bottom hk⟩

theorem Factor.allExact_of_product : (fs : List Factor) → {q : Rat} →
    Factor.product? I fs = some q → Factor.AllExact fs
  | [], _, _ => trivial
  | f :: rest, _, h => by
    obtain ⟨a, b, ha, hb, -⟩ := Factor.product?_cons_eq_some.mp h
    exact ⟨f.isExact_of_meaning ha, Factor.allExact_of_product rest hb⟩

theorem Term.allExact_of_total : (ts : List Term) → {q : Rat} →
    Term.total? I ts = some q → Term.AllExact ts
  | [], _, _ => trivial
  | t :: rest, _, h => by
    obtain ⟨a, b, ha, hb, -⟩ := Term.total?_cons_eq_some.mp h
    exact ⟨t.isExact_of_meaning ha, Term.allExact_of_total rest hb⟩

theorem Tree.allExact_of_meanings : (ts : List Tree) → {qs : List Rat} →
    Tree.meanings? I ts = some qs → Tree.AllExact ts
  | [], _, _ => trivial
  | t :: rest, _, h => by
    obtain ⟨a, as, ha, has, -⟩ := Tree.meanings?_cons_eq_some.mp h
    exact ⟨t.isExact_of_meaning ha, Tree.allExact_of_meanings rest has⟩

end

namespace Tree

/-- The outcome of simplification is exact, and so is its canonical form. -/
theorem simplify_isExact (I : Interpretation) (t : Tree) (q : Rat) (h : t.Moderate)
    (hq : t.meaning? I = some q) :
    ∃ s c, t.simplify = .ok s ∧ s.IsExact ∧ t.canonical = .ok c ∧ c.IsExact := by
  obtain ⟨s, hs, hmeaning, c, hc, hform⟩ := simplify_ok h hq
  have hcanonical : t.canonical = .ok c := by
    rw [canonical, hs]
    exact hc
  exact ⟨s, c, hs, s.isExact_of_meaning (hmeaning.trans hq), hcanonical,
    c.isExact_of_meaning (hform.meaning.trans hq)⟩

/-- `x ^ 3 / 2` with `x = 2`. -/
theorem simplify_isExact_of_cube :
    let t : Tree := .term ⟨.one, .exact 2, [⟨.variable "x", .whole 3⟩], [Factor.placeholder]⟩
    ∃ s c, t.simplify = .ok s ∧ s.IsExact ∧ t.canonical = .ok c ∧ c.IsExact := by
  intro t
  let I : Interpretation := ⟨fun _ => 2, fun _ => 0, fun _ _ => none⟩
  have hmoderate : t.Moderate := moderate_term
    (List.forall_mem_singleton.mpr ((moderate_variable "x").power (by decide) (by decide)))
    (List.forall_mem_singleton.mpr moderate_placeholder) (by decide)
  have hmeaning : t.meaning? I = some 4 := by
    have htop : (⟨.variable "x", .whole 3⟩ : Factor).meaning? I = some (2 ^ (3 : Int)) :=
      Factor.meaning?_whole.mpr ⟨2, rfl, .inl (by norm_num), rfl⟩
    exact Term.meaning?_eq_some.mpr ⟨1, 2, _, _, rfl, rfl, (Factor.product?_singleton _).trans htop,
      (Factor.product?_singleton _).trans Factor.meaning?_placeholder, by norm_num, by norm_num,
      by norm_num⟩
  exact simplify_isExact I t 4 hmoderate hmeaning

/-- All terms in the outcome of simplification are in lowest terms, and so are those in its
canonical form. The coefficients are reduced before the gathered factors are folded, so this needs
the bounds: beyond them a gathered power may turn out to be a number only when it is folded. -/
theorem simplify_inLowestTerms (I : Interpretation) (t : Tree) (q : Rat) (h : t.Moderate)
    (hq : t.meaning? I = some q) :
    ∃ s c, t.simplify = .ok s ∧ s.InLowestTerms ∧ t.canonical = .ok c ∧ c.InLowestTerms := by
  obtain ⟨s, _, hs, ⟨-, c, hc, hform⟩, hsimple⟩ := simplify_isSimple h hq
  have hcanonical : t.canonical = .ok c := by
    rw [canonical, hs]
    exact hc
  exact ⟨s, c, hs, hsimple.lowest, hcanonical, hform.tidy.lowest⟩

/-- `6 x / 4` with `x = 2`. -/
theorem simplify_inLowestTerms_of_quotient :
    let t : Tree := .term ⟨.exact 6, .exact 4, [⟨.variable "x", .whole 1⟩], [Factor.placeholder]⟩
    ∃ s c, t.simplify = .ok s ∧ s.InLowestTerms ∧ t.canonical = .ok c ∧ c.InLowestTerms := by
  intro t
  let I : Interpretation := ⟨fun _ => 2, fun _ => 0, fun _ _ => none⟩
  have hmoderate : t.Moderate := moderate_term
    (List.forall_mem_singleton.mpr ((moderate_variable "x").power (by decide) (by decide)))
    (List.forall_mem_singleton.mpr moderate_placeholder) (by decide)
  have hmeaning : t.meaning? I = some 3 := by
    have htop : (⟨.variable "x", .whole 1⟩ : Factor).meaning? I = some (2 ^ (1 : Int)) :=
      Factor.meaning?_whole.mpr ⟨2, rfl, .inl (by norm_num), rfl⟩
    exact Term.meaning?_eq_some.mpr ⟨6, 4, _, _, rfl, rfl, (Factor.product?_singleton _).trans htop,
      (Factor.product?_singleton _).trans Factor.meaning?_placeholder, by norm_num, by norm_num,
      by norm_num⟩
  exact simplify_inLowestTerms I t 3 hmoderate hmeaning

end Tree

end SymbolicAlgebra
