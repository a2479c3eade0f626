import SymbolicAlgebra.Proofs.Monomial

/-!
# Simplifying monomials

Where the bases of a polynomial term have reduced monomials as their canonical forms, the term is
simplified to a monomial. While its factors are gathered, those on top are powers of different
variables and there are none at the bottom, and what is gathered times what is still to be gathered
stays the same polynomial. So every tree without sums has a reduced monomial as its canonical form.
-/

namespace SymbolicAlgebra

open Outcome
open MvPolynomial (X C monomial)

/-- The canonical forms of numbers and variables are these themselves. -/
structure FixesLeaves (canonical : Tree → Except Fault Tree) : Prop where
  number : ∀ v, canonical (.number v) = .ok (.number v)
  «variable» : ∀ name, canonical (.variable name) = .ok (.variable name)

namespace Product

/-- Powers of variables with the given exponents times a whole number. -/
structure IsMonomial (z : Int) (e : String →₀ Nat) (p : Product) : Prop where
  multiplier : p.multiplier = .exact z
  divisor : p.divisor = .one
  top : p.top.Perm (Factor.powers e)
  bottom : p.bottom = []

section
variable (canonical : Tree → Except Fault Tree)

/-- A power of a base with a reduced monomial as its canonical form, or a placeholder at the bottom
raised to a power. -/
def Item.IsMonomial (item : Item) : Prop :=
  ∃ (b : Tree) (k : Nat) (c : Tree), item.factor = ⟨b, .whole k⟩ ∧ canonical b = .ok c ∧
    c.IsMonomialFormOf b ∧ (k ≤ maxExpandedPower ∨ c.IsVariable) ∧ (item.onTop = true ∨ b = .one)

/-- Gathering an item changes one monomial to another and leaves further items. The product with
what is to be gathered stays the same, and the further items cost less than the given one. -/
structure Gathers (z : Int) (e : String →₀ Nat) (item : Item) (z' : Int) (e' : String →₀ Nat)
    (more : List Item) : Prop where
  items : ∀ i ∈ more, i.IsMonomial canonical
  polynomial : monomial e' z' * Factor.productPolynomial (tops more) =
    monomial e z * Factor.productPolynomial (tops [item])
  card_le : e'.support.card + Factor.totalBulk (tops more) ≤
    e.support.card + Factor.totalBulk (tops [item])
  cost_le : 2 * Factor.totalBulk (more.map (·.factor)) + 2 ≤
    2 * item.factor.base.bulk + more.length

end

variable {canonical : Tree → Except Fault Tree} {z : Int} {e : String →₀ Nat} {p : Product}

theorem merge_powers (hcanonical : FixesLeaves canonical) {fs : List Factor} {name : String}
    {k : Nat} (hk : k ≠ 0) (hfs : fs.Perm (Factor.powers e)) :
    ∃ gs, merge canonical fs ⟨.variable name, .whole k⟩ = .ok gs ∧
      gs.Perm (Factor.powers (e + Finsupp.single name k)) := by
  have hpowers : ∀ m : Nat, m = e name + k → (Factor.powers (e + Finsupp.single name k)).Perm
      (⟨.variable name, .whole m⟩ :: Factor.powers (e.erase name)) := by
    rintro m rfl
    have hname : (e + Finsupp.single name k) name = e name + k := by simp
    have herase : (e + Finsupp.single name k).erase name = e.erase name := by
      rw [Finsupp.erase_add, Finsupp.erase_single, add_zero]
    have hcons := Factor.powers_perm_cons
      (show (e + Finsupp.single name k) name ≠ 0 by rw [hname]; omega)
    rwa [hname, herase] at hcons
  have hmeaning : ∀ f ∈ fs, ∃ y,
      f.base.meaning? ⟨fun _ => 0, fun _ => 0, fun _ _ => none⟩ = some y := by
    intro f hf
    obtain ⟨x, -, rfl⟩ := Factor.mem_powers.mp (hfs.mem_iff.mp hf)
    exact ⟨0, rfl⟩
  rcases Factor.exponentOf?_cases (b := .variable name) rfl hmeaning with
    ⟨hnone, hbase⟩ | ⟨m, hm, hperm, hset⟩
  · have hname : e name = 0 := by
      by_contra hname
      exact hbase (List.mem_map.mpr
        ⟨_, hfs.mem_iff.mpr (Factor.mem_powers.mpr ⟨name, hname, rfl⟩), rfl⟩)
    refine ⟨fs ++ [⟨.variable name, .whole k⟩], by simp [merge, hnone], ?_⟩
    have herase : e.erase name = e := Finsupp.erase_of_notMem_support (by simpa using hname)
    have hcons := hpowers k (by omega)
    rw [herase] at hcons
    exact (List.perm_append_singleton _ _).trans ((hfs.cons _).trans hcons.symm)
  · -- the variable stands there already, with an exponent to which `k` is added
    have hmem : (⟨.variable name, m⟩ : Factor) ∈ Factor.powers e :=
      hfs.mem_iff.mp (hperm.mem_iff.mpr List.mem_cons_self)
    obtain ⟨name', hname, heq⟩ := Factor.mem_powers.mp hmem
    obtain ⟨rfl, rfl⟩ : name = name' ∧ m = .whole (e name') := by simpa using heq
    have hrest : (Factor.eraseBase (.variable name) fs).Perm (Factor.powers (e.erase name)) :=
      List.Perm.cons_inv (hperm.symm.trans (hfs.trans (Factor.powers_perm_cons hname)))
    refine ⟨_, by simp [merge, hm, canonicalSum_whole hcanonical.number]; rfl, ?_⟩
    have hcast : ((e name : Int) + (k : Int)) = ((e name + k : Nat) : Int) := by push_cast; rfl
    rw [hcast]
    exact (hset _).trans ((hrest.cons _).trans (hpowers _ rfl).symm)

theorem items_nil_gathers {z' : Int} {e' : String →₀ Nat} {item : Item}
    (hpolynomial : monomial e' z' = monomial e z * Factor.productPolynomial (tops [item]))
    (hcard : e'.support.card ≤ e.support.card + Factor.totalBulk (tops [item])) :
    Gathers canonical z e item z' e' [] := by
  refine ⟨by simp, ?_, hcard, ?_⟩
  · rw [← hpolynomial]
    exact mul_one _
  · have hpos := item.factor.base.bulk_pos
    simp only [List.map_nil, Factor.totalBulk_nil, List.length_nil]
    omega

theorem tops_singleton (f : Factor) (onTop : Bool) :
    tops [⟨f, onTop⟩] = if onTop then [f] else [] := by cases onTop <;> rfl

theorem fold_isMonomial (hp : p.IsMonomial z e) {y : Int} {onTop : Bool}
    (hone : onTop = true ∨ y = 1) :
    ∃ p', p.fold (.exact y) onTop = .ok p' ∧ p'.IsMonomial (if onTop then z * y else z) e := by
  cases onTop with
  | true =>
    refine ⟨{ p with multiplier := .exact (z * y : Int) }, ?_, rfl, hp.divisor, hp.top, hp.bottom⟩
    simp [fold, hp.multiplier, Value.mul_exact]
  | false =>
    obtain rfl : y = 1 := hone.resolve_left (by simp)
    refine ⟨{ p with divisor := .one }, ?_, hp.multiplier, rfl, hp.top, hp.bottom⟩
    simp [fold, hp.divisor, Value.one, Value.mul_exact]

theorem raised_gathers (hcanonical : FixesLeaves canonical) {t : Term} {y : Int}
    {d : String →₀ Nat} {k : Nat} {f : Factor} (ht : t.IsMonomial y d)
    (hk : k ≤ maxExpandedPower) (hf : f.polynomial = t.polynomial ^ k)
    (hbulk : t.bulk ≤ f.base.bulk) :
    Gathers canonical z e ⟨f, true⟩ (z * y ^ k) e
      (items (t.top.map (.raisedBy k)) (t.bottom.map (.raisedBy k)) true) := by
  obtain ⟨-, -, hne, hall, hbottom⟩ := Term.isPolynomial_iff.mp ht.isPolynomial
  have hlength := List.length_pos_iff.mpr hne
  have htotal := ht.totalBulk_top
  have hplaceholder : ∀ onTop, Item.IsMonomial canonical ⟨.raisedBy k .placeholder, onTop⟩ := by
    intro onTop
    have hraised : Factor.raisedBy k .placeholder = ⟨.one, .whole k⟩ := by
      simp only [Factor.raisedBy, Factor.placeholder, ← Tree.whole_one, Tree.wholePart_whole,
        one_mul]
    rw [hraised]
    exact ⟨.one, k, .one, rfl, hcanonical.number _,
      Tree.IsReducedMonomial.formOf_self ⟨1, by simp [Value.one]⟩, .inl hk, .inr rfl⟩
  rw [Term.bulk_eq] at hbulk
  refine ⟨fun i hi => ?_, ?_, ?_, ?_⟩
  · rw [hbottom] at hi
    rcases List.mem_append.mp hi with hi | hi
    · simp only [List.mem_map] at hi
      obtain ⟨_, ⟨g, hg, rfl⟩, rfl⟩ := hi
      rcases ht.mem_top hg with hg | rfl
      · obtain ⟨name, -, rfl⟩ := Factor.mem_powers.mp hg
        refine ⟨.variable name, d name * k, .variable name, ?_, hcanonical.variable _,
          Tree.IsReducedMonomial.formOf_self trivial, .inr ⟨name, rfl⟩, .inl rfl⟩
        rw [Factor.raisedBy, Tree.wholePart_whole, Nat.cast_mul]
      · exact hplaceholder true
    · obtain rfl : i = ⟨.raisedBy k .placeholder, false⟩ := by simpa using hi
      exact hplaceholder false
  · have htop : Factor.productPolynomial (tops [⟨f, true⟩]) = f.polynomial := by
      simp [tops_singleton, Factor.productPolynomial]
    rw [tops_items, if_pos rfl, Factor.productPolynomial_raised k hall, htop, hf,
      Term.polynomial_eq ht.multiplier, mul_pow, ← map_pow, ← mul_assoc, mul_comm (monomial e z),
      MvPolynomial.C_mul_monomial, mul_comm z]
  · rw [tops_items, if_pos rfl, Factor.totalBulk_raised]
    simp only [tops_singleton, if_true, Factor.totalBulk_cons, Factor.totalBulk_nil]
    omega
  · have hmap : (items (t.top.map (Factor.raisedBy k)) (t.bottom.map (Factor.raisedBy k))
        true).map (·.factor) = t.top.map (Factor.raisedBy k) ++ [.raisedBy k .placeholder] := by
      simp [items, hbottom, Function.comp_def]
    have hone : Factor.totalBulk [Factor.raisedBy k .placeholder] = 1 := rfl
    rw [hmap, Factor.totalBulk_append, Factor.totalBulk_raised, hone]
    simp only [items, hbottom, List.length_append, List.length_map, List.length_singleton]
    omega

theorem step_isMonomial (hcanonical : FixesLeaves canonical) (hp : p.IsMonomial z e) {item : Item}
    (hitem : item.IsMonomial canonical) :
    ∃ p' z' e' more, p.step canonical item = .ok (p', more) ∧ p'.IsMonomial z' e' ∧
      Gathers canonical z e item z' e' more := by
  obtain ⟨⟨base, exponent⟩, onTop⟩ := item
  obtain ⟨b, k, c, hfactor, hc, hform, hk, hside⟩ := hitem
  obtain ⟨rfl, rfl⟩ : base = b ∧ exponent = .whole k := by simpa using hfactor
  have hnorm := Factor.normalize_ok (n := k) hcanonical.number hc hform.isReduced.normal
  have hpower : Factor.productPolynomial (tops [⟨⟨base, .whole k⟩, onTop⟩]) =
      if onTop then c.polynomial ^ k else 1 := by
    cases onTop with
    | true =>
      rw [hform.polynomial]
      simp [tops_singleton, Factor.productPolynomial, Factor.polynomial_whole]
    | false => rfl
  have hnumber : onTop = false → c = .one := by
    intro hbottom
    obtain rfl : base = .one := hside.resolve_left (by simp [hbottom])
    exact Except.ok.inj (hc.symm.trans (hcanonical.number .one))
  by_cases hk0 : k = 0
  · -- a zeroth power is left out
    subst hk0
    refine ⟨p, z, e, [], step_zero hnorm p onTop rfl, hp, items_nil_gathers ?_ (Nat.le_add_right _ _)⟩
    rw [hpower]
    cases onTop <;> simp
  have hn : (k : Int) ≠ 0 := by exact_mod_cast hk0
  cases c with
  | number v =>
    -- a number is folded into the multiplier
    obtain ⟨y, rfl⟩ := hform.isReduced
    have hlimit : k ≤ maxExpandedPower := hk.resolve_right (by rintro ⟨_, h⟩; cases h)
    have hone : onTop = true ∨ y ^ k = 1 := by
      cases onTop with
      | true => exact .inl rfl
      | false =>
        have hy : y = 1 := by simpa [Tree.one, Value.one] using hnumber rfl
        exact .inr (by rw [hy, one_pow])
    obtain ⟨p', hp', hmonomial⟩ := fold_isMonomial hp hone
    refine ⟨p', _, e, [], ?_, hmonomial, items_nil_gathers ?_ (Nat.le_add_right _ _)⟩
    · rw [step_plain hnorm p onTop hn (Factor.value?_number y hlimit), hp']
      rfl
    · rw [hpower]
      cases onTop with
      | true =>
        simp only [if_true, Tree.polynomial, Tree.wholePart_exact]
        rw [← map_pow, mul_comm (monomial e z), MvPolynomial.C_mul_monomial, mul_comm]
      | false => simp
  | «variable» name =>
    -- a power of a variable is merged into those on top
    obtain rfl : onTop = true := by
      by_contra h
      cases hnumber (by simpa using h)
    obtain ⟨top, htop, hperm⟩ := merge_powers hcanonical hk0 hp.top
    refine ⟨{ p with top }, z, e + Finsupp.single name k, [], ?_,
      ⟨hp.multiplier, hp.divisor, hperm, hp.bottom⟩, items_nil_gathers ?_ ?_⟩
    · rw [step_atom hnorm p true hn trivial (Factor.value?_of_not_plain rfl)]
      simp [gather, htop]
    · rw [hpower, if_pos rfl, Tree.polynomial, MvPolynomial.X_pow_eq_monomial,
        MvPolynomial.monomial_mul, mul_one]
    · have hsupport : (e + Finsupp.single name k).support.card ≤ e.support.card + 1 := by
        classical
        refine (Finset.card_le_card Finsupp.support_add).trans ((Finset.card_union_le _ _).trans ?_)
        exact Nat.add_le_add_left (Finsupp.card_support_le_one.mpr ⟨name, by simp⟩) _
      have hpos := base.bulk_pos
      simp only [tops_singleton, if_true, Factor.totalBulk_cons, Factor.totalBulk_nil]
      omega
  | term t =>
    -- the powers of the variables of a term take its place
    obtain ⟨y, d, ht, -, hd⟩ := hform.isReduced
    have hvalue := Factor.value?_of_not_plain (n := k) (ht.plainValue?_eq_none hd)
    obtain rfl : onTop = true := by
      by_contra h
      cases hnumber (by simpa using h)
    have hlimit : k ≤ maxExpandedPower := hk.resolve_right (by rintro ⟨_, h⟩; cases h)
    obtain ⟨-, -, htop, hbottom⟩ := Term.normal_iff.mp ht.normal
    refine ⟨{ p with multiplier := .exact (z * y ^ k : Int), divisor := .one }, z * y ^ k, e,
      items (t.top.map (.raisedBy k)) (t.bottom.map (.raisedBy k)) true, ?_,
      ⟨rfl, rfl, hp.top, hp.bottom⟩, raised_gathers hcanonical ht hlimit ?_ hform.bulk_le⟩
    · rw [step_term hnorm p true hn hvalue htop.allWhole hbottom.allWhole ht.multiplier
        (.inr (Int.natCast_nonneg k)) ht.divisor one_ne_zero (hlimit.trans (by decide))]
      simp [multiplyBy, hp.multiplier, hp.divisor, Value.mul_exact, Value.one]
    · rw [Factor.polynomial_whole, ← hform.polynomial]
      rfl
  | _ => exact hform.isReduced.elim

theorem run_isMonomial (hcanonical : FixesLeaves canonical) (steps : Nat) {items : List Item}
    (hp : p.IsMonomial z e) (hitems : ∀ i ∈ items, i.IsMonomial canonical)
    (hsteps : 2 * Factor.totalBulk (items.map (·.factor)) ≤ steps + items.length) :
    ∃ p' z' e', run canonical steps p items = .ok p' ∧ p'.IsMonomial z' e' ∧
      monomial e' z' = monomial e z * Factor.productPolynomial (tops items) ∧
      e'.support.card ≤ e.support.card + Factor.totalBulk (tops items) := by
  induction steps generalizing p z e items with
  | zero =>
    cases items with
    | nil => exact ⟨p, z, e, rfl, hp, (mul_one _).symm, Nat.le_add_right _ _⟩
    | cons item rest =>
      have hle := Factor.length_le_totalBulk ((item :: rest).map (·.factor))
      simp only [List.length_map, List.length_cons] at hle hsteps
      omega
  | succ steps ih =>
    cases items with
    | nil => exact ⟨p, z, e, rfl, hp, (mul_one _).symm, Nat.le_add_right _ _⟩
    | cons item rest =>
      obtain ⟨hitem, hrest⟩ := List.forall_mem_cons.mp hitems
      obtain ⟨p', z', e', more, hstep, hp', hgathers⟩ := step_isMonomial hcanonical hp hitem
      have htops : tops (item :: rest) = tops [item] ++ tops rest := tops_append [item] rest
      have hcost := hgathers.cost_le
      have hcard := hgathers.card_le
      obtain ⟨p'', z'', e'', hrun, hp'', hpolynomial, hcard'⟩ := ih hp'
        (show ∀ i ∈ rest ++ more, i.IsMonomial canonical from fun i hi =>
          (List.mem_append.mp hi).elim (hrest i) (hgathers.items i)) (by
          simp only [List.map_append, Factor.totalBulk_append, List.map_cons,
            Factor.totalBulk_cons, List.length_append, List.length_cons] at hsteps ⊢
          omega)
      refine ⟨p'', z'', e'', by simp [run, hstep, hrun], hp'', ?_, ?_⟩
      · rw [hpolynomial, htops, tops_append, Factor.productPolynomial_append,
          Factor.productPolynomial_append, mul_comm (Factor.productPolynomial (tops rest)),
          ← mul_assoc, ← mul_assoc, hgathers.polynomial]
      · rw [tops_append, Factor.totalBulk_append] at hcard'
        rw [htops, Factor.totalBulk_append]
        omega

theorem cancel_of_bottom_nil (h : p.bottom = []) : p.cancel canonical = .ok p := by
  have hnone : (p.top.filter fun f => (Factor.exponentOf? p.bottom f.base).isSome) = [] := by
    simp [h, Factor.exponentOf?]
  rw [cancel, hnone]
  rfl

theorem reduceRatio_one (z : Int) :
    Value.reduceRatio (.exact z) .one = .ok (.exact z, .one) := by
  obtain ⟨a, b, hratio, hb, hcoprime, hquot⟩ := Value.reduceRatio_exact z one_ne_zero
  have hb0 : (b : Rat) ≠ 0 := by exact_mod_cast hb.ne'
  rw [div_one, div_eq_iff hb0] at hquot
  obtain rfl : a = z * b := by exact_mod_cast hquot
  obtain rfl : b = 1 := by
    rw [Int.gcd_mul_left_left] at hcoprime
    omega
  rw [mul_one, Int.cast_one] at hratio
  exact hratio

theorem IsMonomial.toTerm_ok (hp : p.IsMonomial z e) : ∃ t z' e', p.toTerm = .ok t ∧
    t.IsMonomial z' e' ∧ (z' = 0 → e' = 0) ∧ t.polynomial = monomial e z ∧
      e'.support.card ≤ e.support.card := by
  by_cases hz : z = 0
  · subst hz
    refine ⟨.zero, 0, 0, by simp [toTerm, hp.multiplier], Term.zero_isMonomial, fun _ => rfl,
      ?_, by simp⟩
    rw [Term.zero_isMonomial.polynomial, map_zero, map_zero]
  · have hfoldable : ∀ f ∈ p.top, f.IsFoldable := fun f hf =>
      (Factor.normal_of_mem_powers (hp.top.mem_iff.mp hf)).isFoldable
    have hnumber : (Value.exact z).isZero = false := by simp [hz]
    have hmonomial : (⟨.exact z, .one, Factor.kept p.top, Factor.kept []⟩ : Term).IsMonomial z e := by
      have hkept : Factor.kept (Factor.powers e) = Term.side (Factor.powers e) := by
        rw [Factor.kept, List.filter_eq_self.mpr]
        intro f hf
        obtain ⟨name, hname, rfl⟩ := Factor.mem_powers.mp hf
        simpa [Factor.stays, Tree.IsAtom] using hname
      exact ⟨rfl, rfl, hkept ▸ Factor.kept_perm hp.top, rfl⟩
    refine ⟨_, z, e, ?_, hmonomial, fun h => absurd h hz, hmonomial.polynomial, le_rfl⟩
    simp only [toTerm, hnumber, hp.multiplier, hp.divisor, hp.bottom, reduceRatio_one, ok_bind,
      Bool.false_eq_true, if_false]
    exact Term.of_ok z 1 hfoldable (List.forall_mem_nil _)

end Product

namespace Term

variable {canonical : Tree → Except Fault Tree} {sums : Bool} {steps : Nat} {t : Term}

/-- A polynomial term whose bases have reduced monomials as their canonical forms is simplified to a
monomial that is no larger. -/
theorem simplifyBy_isMonomial (hcanonical : FixesLeaves canonical) (ht : t.IsPolynomial sums)
    (hbases : ∀ f ∈ t.top, ∃ c, canonical f.base = .ok c ∧ c.IsMonomialFormOf f.base)
    (hsteps : 2 * t.bulk ≤ steps) :
    ∃ s z e, t.simplifyBy steps canonical = .ok s ∧ s.IsMonomial z e ∧ (z = 0 → e = 0) ∧
      s.polynomial = t.polynomial ∧ s.bulk ≤ t.bulk := by
  obtain ⟨⟨z, hz⟩, hd, hne, htop, hbottom⟩ := isPolynomial_iff.mp ht
  have hpos := Factor.totalBulk_pos hne
  by_cases hz0 : z = 0
  · subst hz0
    refine ⟨.zero, 0, 0, by simp [simplifyBy, hz], zero_isMonomial, fun _ => rfl, ?_, ?_⟩
    · rw [zero_isMonomial.polynomial, polynomial_eq hz, map_zero, map_zero, zero_mul]
    · rw [t.bulk_eq]
      exact Nat.add_le_add_left hpos 1
  · have hstart : Product.IsMonomial z 0 ⟨t.multiplier, t.divisor, [], []⟩ :=
      ⟨hz, hd, by simp, rfl⟩
    have hitems : ∀ i ∈ Product.items t.top t.bottom true, i.IsMonomial canonical := by
      intro i hi
      rw [hbottom] at hi
      rcases List.mem_append.mp hi with hi | hi
      · obtain ⟨⟨base, exponent⟩, hf, rfl⟩ := List.mem_map.mp hi
        obtain ⟨-, k, rfl, hk⟩ := htop _ hf
        obtain ⟨c, hc, hform⟩ := hbases _ hf
        refine ⟨base, k, c, rfl, hc, hform, hk.imp_right ?_, .inl rfl⟩
        rintro ⟨name, rfl⟩
        exact ⟨name, Except.ok.inj (hc.symm.trans (hcanonical.variable name))⟩
      · obtain rfl : i = ⟨.placeholder, false⟩ := by simpa using hi
        exact ⟨.one, 1, .one, by simp [Factor.placeholder, ← Tree.whole_one],
          hcanonical.number _, Tree.IsReducedMonomial.formOf_self ⟨1, by simp [Value.one]⟩,
          .inl (by decide), .inr rfl⟩
    have hcost : 2 * Factor.totalBulk ((Product.items t.top t.bottom true).map (·.factor)) ≤
        steps + (Product.items t.top t.bottom true).length := by
      have hmap : (Product.items t.top t.bottom true).map (·.factor) =
          t.top ++ [.placeholder] := by
        simp [Product.items, hbottom, Function.comp_def]
      have hone : Factor.totalBulk [Factor.placeholder] = 1 := rfl
      rw [hmap, Factor.totalBulk_append, hone]
      rw [t.bulk_eq] at hsteps
      omega
    obtain ⟨p, z', e', hrun, hp, hpolynomial, hcard⟩ :=
      Product.run_isMonomial hcanonical steps hstart hitems hcost
    obtain ⟨s, z'', e'', hs, hmonomial, hzero, hsame, hcard'⟩ := hp.toTerm_ok
    rw [Product.tops_items, if_pos rfl] at hpolynomial hcard
    have hnonzero : t.multiplier.isZero = false := by simp [hz, hz0]
    have hcancel : p.cancel canonical = .ok p := Product.cancel_of_bottom_nil hp.bottom
    refine ⟨s, z'', e'', by simp [simplifyBy, hnonzero, hrun, hcancel, hs], hmonomial, hzero,
      ?_, ?_⟩
    · rw [hsame, hpolynomial, polynomial_eq hz]
      rfl
    · rw [t.bulk_eq]
      refine hmonomial.bulk_le hpos (hcard'.trans (hcard.trans ?_))
      simp

end Term

/-- The canonical forms of trees without sums up to a bulk are reduced monomials. -/
structure CanonizesMonomials (limit : Nat) (canonical : Tree → Except Fault Tree) : Prop
    extends FixesLeaves canonical where
  tree : ∀ b : Tree, b.IsPolynomial false → b.bulk ≤ limit →
    ∃ c, canonical b = .ok c ∧ c.IsMonomialFormOf b

namespace Tree

variable {b c : Tree} {canonical : Tree → Except Fault Tree} {limit : Nat}

theorem IsMonomialFormOf.trans {t : Tree} (h : c.IsMonomialFormOf b)
    (hpolynomial : b.polynomial = t.polynomial) (hbulk : b.bulk ≤ t.bulk) :
    c.IsMonomialFormOf t :=
  ⟨h.isReduced, h.polynomial.trans hpolynomial, h.bulk_le.trans hbulk⟩

end Tree

theorem Tree.IsReducedMonomial.number_or_not_plain {c : Tree} (h : c.IsReducedMonomial) :
    (∃ z : Int, c = .number (.exact z)) ∨ c.plainValue? = .ok none := by
  cases c with
  | number v =>
    obtain ⟨z, rfl⟩ := h
    exact .inl ⟨z, rfl⟩
  | «variable» name => exact .inr rfl
  | term t =>
    obtain ⟨z, e, ht, -, he⟩ := h
    exact .inr (ht.plainValue?_eq_none he)
  | _ => exact h.elim

/-- A power of a reduced monomial other than a number can be made a term. -/
theorem Tree.IsReducedMonomial.ofFactor_ok {c : Tree} (h : c.IsReducedMonomial)
    (hplain : c.plainValue? = .ok none) (k : Nat) :
    ∃ u, Term.ofFactor ⟨c, .whole k⟩ = .ok u := by
  have habsorb : ∃ r, c.absorb (.whole k) .one = .ok r := by
    by_cases hk : (k : Int) = 0
    · rw [hk]
      exact ⟨_, absorb_zero c .one⟩
    by_cases hsign : (k : Int) = 1 → c.isNegative = .ok false
    · exact ⟨_, absorb_keeps hk hplain hsign .one⟩
    · obtain ⟨hone, hnegative⟩ := Classical.not_imp.mp hsign
      cases c with
      | number v => cases hplain
      | «variable» name => exact absurd rfl hnegative
      | term t =>
        -- the sign of the term is moved out of it
        obtain ⟨z, e, ht, hz, -⟩ := h
        have hpulls : (Tree.term t).isNegative = .ok true := by
          simpa [isNegative] using hnegative
        obtain ⟨u, hscale, hu⟩ : ∃ u, t.scale .negativeOne = .ok u ∧ u.IsMonomial (z * -1) e := by
          refine ⟨{ t with multiplier := .exact (z * -1 : Int) }, ?_, rfl, ht.divisor, ht.top,
            ht.bottom⟩
          simp [Term.scale, ht.multiplier, Value.negativeOne, Value.mul_exact]
        obtain ⟨o, ho, -⟩ := hu.reduce_ok fun h => absurd h (by omega)
        have hvalue := Factor.value?_of_not_plain (n := 1) hplain
        rw [hone, absorb.eq_def]
        have hmul : Value.one.mul .negativeOne = .ok .negativeOne := by
          simp [Value.one, Value.negativeOne, Value.mul_exact]
        simp [hvalue, hpulls, hscale, ho, hmul]
      | _ => exact h.elim
  obtain ⟨⟨v, kept⟩, hr⟩ := habsorb
  exact ⟨⟨v, .one, Term.side kept.toList, Term.side []⟩,
    by simp [Term.ofFactor, Term.of, Term.collect, hr]⟩

theorem CanonizesMonomials.bases {canonical : Tree → Except Fault Tree} {limit : Nat} {t : Term}
    (h : CanonizesMonomials limit canonical) (ht : t.IsPolynomial false)
    (hbulk : t.bulk ≤ 1 + limit) :
    ∀ f ∈ t.top, ∃ c, canonical f.base = .ok c ∧ c.IsMonomialFormOf f.base := by
  intro f hf
  obtain ⟨-, -, -, htop, -⟩ := Term.isPolynomial_iff.mp ht
  have hbase : f.base.IsPolynomial false := by
    cases f
    exact (htop _ hf).1
  have hle := Factor.bulk_le_totalBulk hf
  rw [t.bulk_eq] at hbulk
  exact h.tree f.base hbase (by omega)

theorem Term.simplifyBy_canonizes {canonical : Tree → Except Fault Tree} {limit steps : Nat}
    {t : Term} {b : Tree} (hcanonical : CanonizesMonomials limit canonical)
    (ht : t.IsPolynomial false) (hbulk : t.bulk ≤ 1 + limit) (hsteps : 2 * t.bulk ≤ steps)
    (hpolynomial : t.polynomial = b.polynomial) (hle : t.bulk ≤ b.bulk) :
    ∃ s c, t.simplifyBy steps canonical = .ok s ∧ s.reduce = .ok c ∧ c.IsMonomialFormOf b := by
  obtain ⟨s, z, e, hs, hmonomial, hzero, hsame, hsbulk⟩ :=
    simplifyBy_isMonomial hcanonical.toFixesLeaves ht (hcanonical.bases ht hbulk) hsteps
  obtain ⟨c, hc, hform⟩ := hmonomial.reduce_ok hzero
  exact ⟨s, c, hs, hc, hform.trans (hsame.trans hpolynomial) (hsbulk.trans hle)⟩

/-- Enough steps give every tree without sums its canonical form. -/
theorem canonicalWith_canonizesMonomials {n limit : Nat} (h : 2 * limit < n) :
    CanonizesMonomials limit (Tree.canonicalWith n) := by
  induction n generalizing limit with
  | zero => omega
  | succ n ih =>
    have hleaves : FixesLeaves (Tree.canonicalWith (n + 1)) := ⟨fun _ => rfl, fun _ => rfl⟩
    refine ⟨hleaves, fun b hb hbulk => ?_⟩
    have hpos := b.bulk_pos
    have hwithin : CanonizesMonomials (limit - 1) (Tree.canonicalWith n) := ih (by omega)
    cases b with
    | number v => exact ⟨_, rfl, Tree.IsReducedMonomial.formOf_self hb⟩
    | «variable» name => exact ⟨_, rfl, Tree.IsReducedMonomial.formOf_self trivial⟩
    | term t =>
      have ht : t.bulk ≤ limit := hbulk
      obtain ⟨s, c, hs, hc, hform⟩ := Term.simplifyBy_canonizes (b := .term t) hwithin hb
        (by omega) (show 2 * t.bulk ≤ n by omega) rfl le_rfl
      refine ⟨c, ?_, hform⟩
      simp [Tree.canonicalWith, Tree.simplifyWith_succ, Tree.simplifyBy, hs, Tree.reduce, hc]
    | power f =>
      obtain ⟨base, exponent⟩ := f
      obtain ⟨hbase, k, rfl, hk⟩ := hb
      have hbound : 1 + base.bulk ≤ limit := hbulk
      obtain ⟨c, hc, hform⟩ := hwithin.tree base hbase (by omega)
      have hnorm := Factor.normalize_ok (n := k) hwithin.number hc hform.isReduced.normal
      have hk' : k ≤ maxExpandedPower ∨ c.IsVariable := hk.imp_right fun ⟨name, hname⟩ =>
        ⟨name, by rw [hname, hwithin.variable] at hc; exact (Except.ok.inj hc).symm⟩
      have hpower : (⟨c, .whole k⟩ : Factor).polynomial = (Tree.power ⟨base, .whole k⟩).polynomial := by
        rw [Factor.polynomial_whole, hform.polynomial, ← Factor.polynomial_whole]
        rfl
      rcases hform.isReduced.number_or_not_plain with ⟨z, rfl⟩ | hplain
      · have hlimit : k ≤ maxExpandedPower := hk'.resolve_right (by rintro ⟨_, h⟩; cases h)
        have hvalue := Factor.value?_number z hlimit
        refine ⟨.number (.exact (z ^ k : Int)), ?_, ⟨z ^ k, rfl⟩, ?_, hpos⟩
        · simp [Tree.canonicalWith, Tree.simplifyWith_succ, Tree.simplifyBy, hnorm, hvalue,
            Tree.reduce]
        · rw [← hpower, Factor.polynomial_whole, Tree.polynomial, Tree.polynomial,
            Tree.wholePart_exact, Tree.wholePart_exact, map_pow]
      · have hvalue := Factor.value?_of_not_plain (n := k) hplain
        obtain ⟨u, hu⟩ := hform.isReduced.ofFactor_ok hplain k
        obtain ⟨hupoly, husame, hubulk⟩ := Term.ofFactor_isPolynomial hu
          ⟨hform.isReduced.isPolynomial, k, rfl, hk'⟩
        have hcbulk : u.bulk ≤ 1 + base.bulk := hubulk.trans (Nat.add_le_add_left hform.bulk_le 1)
        obtain ⟨s, c', hs, hc', hform'⟩ := Term.simplifyBy_canonizes hwithin hupoly
          (by omega) (show 2 * u.bulk ≤ n by omega) (husame.trans hpower) hcbulk
        refine ⟨c', ?_, hform'⟩
        simp [Tree.canonicalWith, Tree.simplifyWith_succ, Tree.simplifyBy, hnorm, hvalue, hu, hs,
          Tree.reduce, hc']
    | constant _ => exact hb.elim
    | sum ts => exact absurd hb.1 (by simp)
    | call _ _ => exact hb.elim

end SymbolicAlgebra
