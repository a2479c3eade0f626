import SymbolicAlgebra.Proofs.PolynomialBuilding
import SymbolicAlgebra.Proofs.LikeTerms
import SymbolicAlgebra.Proofs.Run

/-!
# Monomials

A term is a monomial if it is a whole multiple of powers of variables, one for each variable, in any
order. Which powers these are is determined by the term, and terms are like if they agree in them.
Unwrapping a monomial leaves a number, a variable or the monomial itself.
-/

namespace SymbolicAlgebra

open Outcome
open MvPolynomial (X C monomial)

namespace Factor

/-- The powers of the variables with the given exponents, those with the exponent zero left out. -/
noncomputable def powers (e : String →₀ Nat) : List Factor :=
  e.support.toList.map fun name => ⟨.variable name, .whole (e name)⟩

variable {e : String →₀ Nat} {f : Factor} {name : String}

@[simp] theorem powers_zero : powers 0 = [] := by simp [powers]

theorem mem_powers :
    f ∈ powers e ↔ ∃ name, e name ≠ 0 ∧ f = ⟨.variable name, .whole (e name)⟩ := by
  simp [powers, eq_comm]

theorem powers_perm_cons (h : e name ≠ 0) :
    (powers e).Perm (⟨.variable name, .whole (e name)⟩ :: powers (e.erase name)) := by
  classical
  have hsupport : e.support = insert name (e.erase name).support := by
    rw [Finsupp.support_erase, Finset.insert_erase (Finsupp.mem_support_iff.mpr h)]
  have hnotMem : name ∉ (e.erase name).support := by simp
  have hcongr : powers (e.erase name) = (e.erase name).support.toList.map
      fun x => ⟨.variable x, .whole (e x)⟩ := by
    apply List.map_congr_left
    intro x hx
    rw [Finset.mem_toList] at hx
    have hne : x ≠ name := by
      rintro rfl
      exact hnotMem hx
    rw [Finsupp.erase_ne hne]
  rw [hcongr, powers, hsupport]
  exact ((Finset.toList_insert hnotMem).map _).trans (List.Perm.of_eq (List.map_cons ..))

theorem totalBulk_eq_length {fs : List Factor} (h : ∀ f ∈ fs, f.base.bulk = 1) :
    totalBulk fs = fs.length := by
  induction fs with
  | nil => rfl
  | cons f fs ih =>
    obtain ⟨hf, hfs⟩ := List.forall_mem_cons.mp h
    rw [totalBulk_cons, hf, ih hfs, List.length_cons, Nat.add_comm]

theorem totalBulk_powers (e : String →₀ Nat) : totalBulk (powers e) = e.support.card := by
  rw [totalBulk_eq_length, powers, List.length_map, Finset.length_toList]
  intro f hf
  obtain ⟨name, -, rfl⟩ := mem_powers.mp hf
  rfl

theorem totalBulk_raised (n : Int) (fs : List Factor) :
    totalBulk (fs.map (raisedBy n)) = totalBulk fs := by
  induction fs with
  | nil => rfl
  | cons f fs ih => simp [raisedBy, ih]

theorem productPolynomial_raised {sums : Bool} {fs : List Factor} (k : Nat)
    (h : ∀ f ∈ fs, f.IsPolynomial sums) :
    productPolynomial (fs.map (raisedBy k)) = productPolynomial fs ^ k := by
  induction fs with
  | nil => simp [productPolynomial]
  | cons f fs ih =>
    obtain ⟨base, exponent⟩ := f
    obtain ⟨⟨-, m, rfl, -⟩, hfs⟩ := List.forall_mem_cons.mp h
    have hraised : raisedBy k ⟨base, .whole m⟩ = ⟨base, .whole (m * k : Nat)⟩ := by
      rw [raisedBy, Tree.wholePart_whole, Nat.cast_mul]
    rw [List.map_cons, productPolynomial, productPolynomial, hraised, polynomial_whole,
      polynomial_whole, ih hfs, mul_pow, pow_mul]

theorem totalBulk_perm {fs gs : List Factor} (h : fs.Perm gs) : totalBulk fs = totalBulk gs := by
  induction h with
  | nil => rfl
  | cons f _ ih => simp [ih]
  | swap f g fs =>
    simp only [totalBulk_cons]
    omega
  | trans _ _ ih ih' => rw [ih, ih']

theorem productPolynomial_powers (e : String →₀ Nat) :
    productPolynomial (powers e) = monomial e 1 := by
  have hmap : ∀ names : List String,
      productPolynomial (names.map fun name => ⟨.variable name, .whole (e name)⟩) =
        (names.map fun name => (X name : MvPolynomial String Int) ^ e name).prod := by
    intro names
    induction names with
    | nil => rfl
    | cons name names ih =>
      rw [List.map_cons, productPolynomial, ih, polynomial_whole, List.map_cons, List.prod_cons]
      rfl
  rw [powers, hmap, Finset.prod_map_toList, MvPolynomial.monomial_eq, map_one, one_mul]
  rfl

theorem isPolynomial_of_mem_powers {sums : Bool} (h : f ∈ powers e) : f.IsPolynomial sums := by
  obtain ⟨name, -, rfl⟩ := mem_powers.mp h
  exact ⟨trivial, e name, rfl, .inr ⟨name, rfl⟩⟩

theorem normal_of_mem_powers (h : f ∈ powers e) : f.Normal := by
  obtain ⟨name, hname, rfl⟩ := mem_powers.mp h
  exact ⟨trivial, trivial, e name, by exact_mod_cast hname, rfl⟩

theorem side_powers_inj {d : String →₀ Nat}
    (h : (Term.side (powers d)).Perm (Term.side (powers e))) : d = e := by
  have hproduct := productPolynomial_perm h
  rw [productPolynomial_side, productPolynomial_side, productPolynomial_powers,
    productPolynomial_powers] at hproduct
  exact MvPolynomial.monomial_left_injective one_ne_zero hproduct

end Factor

/-- A term that multiplies powers of variables with the given exponents by a whole number. -/
structure Term.IsMonomial (z : Int) (e : String →₀ Nat) (t : Term) : Prop where
  multiplier : t.multiplier = .exact z
  divisor : t.divisor = .one
  top : t.top.Perm (side (Factor.powers e))
  bottom : t.bottom = [.placeholder]

namespace Term.IsMonomial

variable {y z : Int} {d e : String →₀ Nat} {s t : Term}

theorem polynomial (h : t.IsMonomial z e) : t.polynomial = monomial e z := by
  rw [polynomial_eq h.multiplier, Factor.productPolynomial_perm h.top,
    Factor.productPolynomial_side, Factor.productPolynomial_powers, MvPolynomial.C_mul_monomial,
    mul_one]

theorem mem_top {f : Factor} (h : t.IsMonomial z e) (hf : f ∈ t.top) :
    f ∈ Factor.powers e ∨ f = .placeholder := by
  have hside := h.top.mem_iff.mp hf
  cases hpowers : Factor.powers e with
  | nil =>
    rw [hpowers] at hside
    exact .inr (List.mem_singleton.mp hside)
  | cons g gs =>
    rw [hpowers] at hside
    exact .inl hside

theorem totalBulk_top (h : t.IsMonomial z e) : Factor.totalBulk t.top = t.top.length := by
  apply Factor.totalBulk_eq_length
  intro f hf
  rcases h.mem_top hf with hf | rfl
  · obtain ⟨name, -, rfl⟩ := Factor.mem_powers.mp hf
    rfl
  · rfl

theorem isPolynomial (h : t.IsMonomial z e) : t.IsPolynomial false := by
  refine isPolynomial_iff.mpr ⟨⟨z, h.multiplier⟩, h.divisor, ?_, fun f hf => ?_, h.bottom⟩
  · intro hnil
    have htop := h.top
    rw [hnil] at htop
    exact side_ne_nil _ (List.nil_perm.mp htop)
  · rcases h.mem_top hf with hf | rfl
    · exact Factor.isPolynomial_of_mem_powers hf
    · exact Factor.isPolynomial_placeholder

theorem normal (h : t.IsMonomial z e) : t.Normal := by
  refine normal_iff.mpr ⟨⟨z, h.multiplier⟩, ⟨1, h.divisor⟩, ?_, .inl h.bottom⟩
  by_cases he : e = 0
  · subst he
    have htop := h.top
    rw [Factor.powers_zero] at htop
    exact .inl (List.perm_singleton.mp htop)
  · obtain ⟨name, hname⟩ := Finsupp.ne_iff.mp he
    obtain ⟨g, gs, hpowers⟩ : ∃ g gs, Factor.powers e = g :: gs := by
      have hmem := Factor.mem_powers.mpr ⟨name, hname, rfl⟩
      cases hpowers : Factor.powers e with
      | nil => exact absurd hmem (by simp [hpowers])
      | cons g gs => exact ⟨g, gs, rfl⟩
    have htop : t.top.Perm (Factor.powers e) := by
      have htop := h.top
      rwa [hpowers] at htop ⊢
    refine .inr ⟨?_, fun f hf => Factor.normal_of_mem_powers (htop.mem_iff.mp hf)⟩
    intro hnil
    rw [hnil, hpowers] at htop
    exact List.cons_ne_nil _ _ (List.nil_perm.mp htop)

theorem eq_zero_of_top (h : t.IsMonomial z e) (htop : t.top = [.placeholder]) : e = 0 := by
  have hside : (side (Factor.powers 0)).Perm (side (Factor.powers e)) := by
    have hperm := h.top
    rw [htop] at hperm
    rwa [Factor.powers_zero]
  exact (Factor.side_powers_inj hside).symm

theorem bulk_le (h : t.IsMonomial z e) {n : Nat} (hpos : 1 ≤ n) (hn : e.support.card ≤ n) :
    t.bulk ≤ 1 + n := by
  rw [bulk_eq, Factor.totalBulk_perm h.top]
  refine Nat.add_le_add_left ?_ 1
  rw [← Factor.totalBulk_powers] at hn
  cases hpowers : Factor.powers e with
  | nil => exact hpos
  | cons g gs => rwa [hpowers] at hn

/-- Monomials are like if they have the same exponents. -/
theorem isLike_iff (hs : s.IsMonomial y d) (ht : t.IsMonomial z e) :
    s.isLike t = true ↔ d = e := by
  have hmeaning := fun (r : Term) (hr : r.IsPolynomial false) =>
    IsPolynomial.meaning (I := ⟨fun _ => 0, fun _ => 0, fun _ _ => none⟩) r hr
  rw [Term.isLike_iff (hmeaning s hs.isPolynomial) (hmeaning t ht.isPolynomial)]
  constructor
  · rintro ⟨htop, -⟩
    exact Factor.side_powers_inj (hs.top.symm.trans (htop.trans ht.top))
  · rintro rfl
    exact ⟨hs.top.trans ht.top.symm, by rw [hs.bottom, ht.bottom]⟩

theorem isZero (h : t.IsMonomial z e) : t.isZero = .ok (decide (z = 0)) := by
  have hfactor : ∀ f ∈ t.top, f.isZero = .ok false := by
    intro f hf
    rcases h.mem_top hf with hf | rfl
    · obtain ⟨name, -, rfl⟩ := Factor.mem_powers.mp hf
      simp [Factor.isZero, Tree.isZero]
    · simp [Factor.placeholder, Factor.isZero, ← Tree.whole_one]
  have hany : Factor.anyZero t.top = .ok false := by
    generalize t.top = fs at hfactor
    induction fs with
    | nil => rfl
    | cons f fs ih =>
      obtain ⟨hf, hfs⟩ := List.forall_mem_cons.mp hfactor
      simp [Factor.anyZero, hf, ih hfs]
  obtain ⟨multiplier, divisor, top, bottom⟩ := t
  obtain rfl : multiplier = .exact z := h.multiplier
  by_cases hz : z = 0
  · simp [Term.isZero, hz]
  · simpa [Term.isZero, hz] using hany

end Term.IsMonomial

theorem Term.zero_isMonomial : zero.IsMonomial 0 0 :=
  ⟨by simp [zero, ofValue, Value.zero], rfl, by simp [zero, ofValue], rfl⟩

/-- A number, a variable or a monomial with a variable, and not zero times that. -/
def Tree.IsReducedMonomial : Tree → Prop
  | .number v => ∃ z : Int, v = .exact z
  | .variable _ => True
  | .term t => ∃ z e, t.IsMonomial z e ∧ z ≠ 0 ∧ e ≠ 0
  | _ => False

namespace Tree

variable {c : Tree}

theorem IsReducedMonomial.isPolynomial (h : c.IsReducedMonomial) : c.IsPolynomial false := by
  cases c with
  | number v => exact h
  | «variable» name => trivial
  | term t =>
    obtain ⟨z, e, ht, -⟩ := h
    exact ht.isPolynomial
  | _ => exact h.elim

theorem IsReducedMonomial.normal (h : c.IsReducedMonomial) : c.Normal := by
  cases c with
  | number v =>
    obtain ⟨z, rfl⟩ := h
    rfl
  | «variable» name => trivial
  | term t =>
    obtain ⟨z, e, ht, -⟩ := h
    exact ht.normal
  | _ => exact h.elim

/-- The first tree is a reduced monomial with the polynomial of the second one and no larger. -/
structure IsMonomialFormOf (c t : Tree) : Prop where
  isReduced : c.IsReducedMonomial
  polynomial : c.polynomial = t.polynomial
  bulk_le : c.bulk ≤ t.bulk

theorem IsReducedMonomial.formOf_self (h : c.IsReducedMonomial) : c.IsMonomialFormOf c :=
  ⟨h, rfl, le_rfl⟩

end Tree

namespace Factor

theorem value?_number (z : Int) {k : Nat} (hk : k ≤ maxExpandedPower) :
    (⟨.number (.exact z), .whole k⟩ : Factor).value? = .ok (some (.exact (z ^ k : Int))) := by
  have hplain := value?_of_plain (I := ⟨fun _ => 0, fun _ => 0, fun _ _ => none⟩)
    (c := .number (.exact z)) (n := k) (Tree.meaning?_number z) rfl
    (.inr (Int.natCast_nonneg k)) (hk.trans (by decide))
  rw [hplain, zpow_natCast, Int.cast_pow]

end Factor

theorem Term.IsMonomial.plainValue?_eq_none {t : Term} {z : Int} {e : String →₀ Nat}
    (h : t.IsMonomial z e) (he : e ≠ 0) : (Tree.term t).plainValue? = .ok none := by
  rcases h.normal.plainValue? with ⟨htop, -⟩ | hnone
  · exact absurd (h.eq_zero_of_top htop) he
  · exact hnone

theorem Term.IsMonomial.reduce_ok {t : Term} {z : Int} {e : String →₀ Nat}
    (h : t.IsMonomial z e) (hzero : z = 0 → e = 0) : ∃ c, t.reduce = .ok c ∧ c.IsMonomialFormOf (.term t) := by
  have hform : ∀ {c : Tree}, t.reduce = .ok c → c.IsReducedMonomial →
      c.IsMonomialFormOf (.term t) := by
    intro c hc hreduced
    obtain ⟨hpolynomial, hbulk⟩ := t.reduce_isPolynomial h.isPolynomial hc
    exact ⟨hreduced, hpolynomial.polynomial_eq fun I =>
      t.reduce_meaning hc (IsPolynomial.meaning t h.isPolynomial), hbulk⟩
  rcases h.normal.reduce_cases with hself | ⟨m, rfl, hnumber⟩ | ⟨base, hatom, -, rfl, hreduce⟩
  · suffices he : e ≠ 0 from
      ⟨.term t, hself, hform hself ⟨z, e, h, fun hz => he (hzero hz), he⟩⟩
    rintro rfl
    -- without variables the term would have been reduced to a number
    have htop : t.top = [.placeholder] := by
      have htop := h.top
      rw [Factor.powers_zero] at htop
      exact List.perm_singleton.mp htop
    obtain ⟨m, d, top, bottom⟩ := t
    obtain rfl : top = [.placeholder] := htop
    obtain rfl : bottom = [.placeholder] := h.bottom
    obtain rfl : d = .one := h.divisor
    have hone := Factor.isOne_placeholder
    have hwhole : Term.denominatorIsOne ⟨m, .one, [.placeholder], [.placeholder]⟩ = .ok true := by
      simp [denominatorIsOne, Value.one, Factor.allOne_placeholder]
    simp only [Factor.placeholder] at hone hwhole hself
    simp [Term.reduce, hone, hwhole] at hself
  · have hm : (Value.exact m) = .exact z := h.multiplier
    exact ⟨_, hnumber, hform hnumber ⟨z, hm⟩⟩
  · refine ⟨base, hreduce, hform hreduce ?_⟩
    rcases h.mem_top (List.mem_singleton_self _) with hmem | heq
    · obtain ⟨name, -, hname⟩ := Factor.mem_powers.mp hmem
      obtain ⟨rfl, -⟩ : base = .variable name ∧ _ := by simpa using hname
      trivial
    · obtain rfl : base = .one := by simpa [Factor.placeholder] using heq
      exact hatom.elim

end SymbolicAlgebra
