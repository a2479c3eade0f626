import SymbolicAlgebra.Proofs.Tally

/-!
# The queue of a product

An item of the queue is gathered as a power of an atom, folded into the coefficients, or replaced by
the powers of the factors of a term. What the product and the queue mean together stays the same,
and so does their balance. The steps that a queue takes are bounded by its cost: an item that is
replaced costs more than its replacements together, since their bases are of less effort and their
degrees add up to no more than its own.
-/

namespace SymbolicAlgebra

open Outcome

variable {I : Interpretation}

namespace Product

def tops (items : List Item) : List Factor := (items.filter (·.onTop)).map (·.factor)

def bottoms (items : List Item) : List Factor := (items.filter (!·.onTop)).map (·.factor)

/-- What the items mean as a fraction. -/
def itemsMeaning? (I : Interpretation) (items : List Item) : Option Rat := do
  quotient? (← Factor.product? I (tops items)) (← Factor.product? I (bottoms items))

/-- The part of the items in the balance. -/
def itemsBalance (w : Tree → Int) (items : List Item) : Int :=
  Factor.weight w (tops items) - Factor.weight w (bottoms items)

theorem itemsMeaning?_eq_some {items : List Item} {q : Rat} :
    itemsMeaning? I items = some q ↔ ∃ n k : Rat, Factor.product? I (tops items) = some n ∧
      Factor.product? I (bottoms items) = some k ∧ k ≠ 0 ∧ q = n / k := by
  simp only [itemsMeaning?, Option.bind_eq_bind, Option.bind_eq_some_iff, quotient?_eq_some]
  constructor
  · rintro ⟨n, hn, k, hk, hk0, rfl⟩
    exact ⟨n, k, hn, hk, hk0, rfl⟩
  · rintro ⟨n, k, hn, hk, hk0, rfl⟩
    exact ⟨n, hn, k, hk, hk0, rfl⟩

theorem tops_append (items items' : List Item) : tops (items ++ items') = tops items ++ tops items' := by
  simp [tops]

theorem bottoms_append (items items' : List Item) :
    bottoms (items ++ items') = bottoms items ++ bottoms items' := by
  simp [bottoms]

@[simp] theorem tops_items (top bottom : List Factor) (onTop : Bool) :
    tops (items top bottom onTop) = if onTop then top else bottom := by
  cases onTop <;> simp [tops, items, List.filter_map, Function.comp_def]

@[simp] theorem bottoms_items (top bottom : List Factor) (onTop : Bool) :
    bottoms (items top bottom onTop) = if onTop then bottom else top := by
  cases onTop <;> simp [bottoms, items, List.filter_map, Function.comp_def]

@[simp] theorem itemsMeaning?_nil : itemsMeaning? I [] = some 1 := by
  rw [itemsMeaning?_eq_some]
  exact ⟨1, 1, rfl, rfl, one_ne_zero, by norm_num⟩

theorem itemsMeaning?_append_eq_some {items items' : List Item} {q : Rat} :
    itemsMeaning? I (items ++ items') = some q ↔ ∃ a b, itemsMeaning? I items = some a ∧
      itemsMeaning? I items' = some b ∧ q = a * b := by
  simp only [itemsMeaning?_eq_some, tops_append, bottoms_append, Factor.product?_append_eq_some]
  constructor
  · rintro ⟨_, _, ⟨n, n', hn, hn', rfl⟩, ⟨k, k', hk, hk', rfl⟩, hk0, rfl⟩
    obtain ⟨hk0, hk0'⟩ := mul_ne_zero_iff.mp hk0
    exact ⟨n / k, n' / k', ⟨n, k, hn, hk, hk0, rfl⟩, ⟨n', k', hn', hk', hk0', rfl⟩,
      (div_mul_div_comm n k n' k').symm⟩
  · rintro ⟨_, _, ⟨n, k, hn, hk, hk0, rfl⟩, ⟨n', k', hn', hk', hk0', rfl⟩, rfl⟩
    exact ⟨n * n', k * k', ⟨n, n', hn, hn', rfl⟩, ⟨k, k', hk, hk', rfl⟩, mul_ne_zero hk0 hk0',
      div_mul_div_comm n k n' k'⟩

theorem itemsBalance_append (w : Tree → Int) (items items' : List Item) :
    itemsBalance w (items ++ items') = itemsBalance w items + itemsBalance w items' := by
  simp only [itemsBalance, tops_append, bottoms_append, Factor.weight_append]
  ring

/-- A value on its side of the fraction bar. -/
def onSide (onTop : Bool) (v : Rat) : Rat := if onTop then v else v⁻¹

theorem onSide_mul (onTop : Bool) (v w : Rat) :
    onSide onTop (v * w) = onSide onTop v * onSide onTop w := by
  cases onTop <;> simp [onSide, mul_comm]

theorem itemsMeaning?_singleton_eq_some {f : Factor} {onTop : Bool} {q : Rat} :
    itemsMeaning? I [⟨f, onTop⟩] = some q ↔
      ∃ v, f.meaning? I = some v ∧ (onTop = true ∨ v ≠ 0) ∧ q = onSide onTop v := by
  rw [itemsMeaning?_eq_some]
  cases onTop with
  | true =>
    have htops : Factor.product? I (tops [⟨f, true⟩]) = f.meaning? I := Factor.product?_singleton f
    have hbottoms : Factor.product? I (bottoms [⟨f, true⟩]) = some 1 := rfl
    simp [htops, hbottoms, onSide, @eq_comm _ q]
  | false =>
    have htops : Factor.product? I (tops [⟨f, false⟩]) = some 1 := rfl
    have hbottoms : Factor.product? I (bottoms [⟨f, false⟩]) = f.meaning? I :=
      Factor.product?_singleton f
    simp [htops, hbottoms, onSide]

theorem fold_ok {p : Product} {c v : Rat} {onTop : Bool} (hc : p.asTerm.meaning? I = some c)
    (hv : onTop = true ∨ v ≠ 0) :
    ∃ p', p.fold (.exact v) onTop = .ok p' ∧ p'.top = p.top ∧ p'.bottom = p.bottom ∧
      p'.asTerm.meaning? I = some (c * onSide onTop v) := by
  obtain ⟨m, d, a, k, hm, hd, ha, hk, hd0, hk0, rfl⟩ := asTerm_meaning?_eq_some.mp hc
  cases onTop with
  | true =>
    refine ⟨{ p with multiplier := .exact (m * v) }, by simp [fold, hm, Value.mul_exact], rfl, rfl,
      asTerm_meaning?_eq_some.mpr ⟨m * v, d, a, k, rfl, hd, ha, hk, hd0, hk0, ?_⟩⟩
    simp only [onSide, if_true]
    ring
  | false =>
    have hv0 : v ≠ 0 := hv.resolve_left (by simp)
    refine ⟨{ p with divisor := .exact (d * v) }, by simp [fold, hd, Value.mul_exact], rfl, rfl,
      asTerm_meaning?_eq_some.mpr ⟨m, d * v, a, k, hm, rfl, ha, hk, mul_ne_zero hd0 hv0, hk0, ?_⟩⟩
    simp only [onSide, Bool.false_eq_true, if_false]
    field_simp

theorem multiplyBy_ok {p : Product} {c n d : Rat} {onTop : Bool}
    (hc : p.asTerm.meaning? I = some c) (hd : d ≠ 0) (hn : onTop = true ∨ n ≠ 0) :
    ∃ p', p.multiplyBy (.exact n) (.exact d) onTop = .ok p' ∧ p'.top = p.top ∧
      p'.bottom = p.bottom ∧ p'.asTerm.meaning? I = some (c * onSide onTop (n / d)) := by
  obtain ⟨m, e, a, k, hm, he, ha, hk, he0, hk0, rfl⟩ := asTerm_meaning?_eq_some.mp hc
  cases onTop with
  | true =>
    refine ⟨{ p with multiplier := .exact (m * n), divisor := .exact (e * d) },
      by simp [multiplyBy, hm, he, Value.mul_exact], rfl, rfl, asTerm_meaning?_eq_some.mpr
        ⟨m * n, e * d, a, k, rfl, rfl, ha, hk, mul_ne_zero he0 hd, hk0, ?_⟩⟩
    simp only [onSide, if_true]
    field_simp
  | false =>
    have hn0 : n ≠ 0 := hn.resolve_left (by simp)
    refine ⟨{ p with multiplier := .exact (m * d), divisor := .exact (e * n) },
      by simp [multiplyBy, hm, he, Value.mul_exact], rfl, rfl, asTerm_meaning?_eq_some.mpr
        ⟨m * d, e * n, a, k, rfl, rfl, ha, hk, mul_ne_zero he0 hn0, hk0, ?_⟩⟩
    simp only [onSide, Bool.false_eq_true, if_false]
    field_simp

variable {canonical : Tree → Except Fault Tree} {limit : Nat}

theorem gather_ok (hnumber : ∀ v, canonical (.number v) = .ok (.number v)) {p : Product}
    {f : Factor} {c v : Rat} {onTop : Bool} (hp : p.Gathered limit) (hf : f.IsAtomPower limit)
    (hc : p.asTerm.meaning? I = some c) (hv : f.meaning? I = some v)
    (hv0 : onTop = true ∨ v ≠ 0) :
    ∃ p', p.gather canonical f onTop = .ok p' ∧ p'.Gathered limit ∧
      p'.asTerm.meaning? I = some (c * onSide onTop v) ∧
      ∀ w, p'.balance w = p.balance w + itemsBalance w [⟨f, onTop⟩] := by
  obtain ⟨m, d, a, k, hm, hd, ha, hk, hd0, hk0, rfl⟩ := asTerm_meaning?_eq_some.mp hc
  cases onTop with
  | true =>
    obtain ⟨fs, hfs, hgathered, hproduct, hweight⟩ := merge_ok hnumber hp.top hf ha hv
    refine ⟨{ p with top := fs }, by simp [gather, hfs], ⟨hgathered, hp.bottom⟩,
      asTerm_meaning?_eq_some.mpr ⟨m, d, a * v, k, hm, hd, hproduct, hk, hd0, hk0, ?_⟩, fun w => ?_⟩
    · simp only [onSide, if_true]
      ring
    · simp only [balance, hweight, Factor.weight_append, itemsBalance, tops, bottoms, List.filter,
        List.map, Factor.weight, Bool.not_true]
      ring
  | false =>
    have hv0' : v ≠ 0 := hv0.resolve_left (by simp)
    obtain ⟨fs, hfs, hgathered, hproduct, hweight⟩ := merge_ok hnumber hp.bottom hf hk hv
    refine ⟨{ p with bottom := fs }, by simp [gather, hfs], ⟨hp.top, hgathered⟩,
      asTerm_meaning?_eq_some.mpr ⟨m, d, a, k * v, hm, hd, ha, hproduct, hd0,
        mul_ne_zero hk0 hv0', ?_⟩, fun w => ?_⟩
    · simp only [onSide, Bool.false_eq_true, if_false]
      field_simp
    · simp only [balance, hweight, Factor.weight_append, itemsBalance, tops, bottoms, List.filter,
        List.map, Factor.weight, Bool.not_false]
      ring

end Product

namespace Factor

/-- The factor raised to a power, if its exponent is whole. -/
def raisedBy (n : Int) (f : Factor) : Factor := ⟨f.base, .whole (f.exponent.wholePart * n)⟩

def AllWhole (fs : List Factor) : Prop := ∀ f ∈ fs, ∃ n : Int, f.exponent = .whole n

theorem NormalSide.allWhole {fs : List Factor} (h : NormalSide fs) : AllWhole fs := by
  rcases h with rfl | ⟨-, hfs⟩
  · exact List.forall_mem_singleton.mpr ⟨1, Tree.whole_one.symm⟩
  · intro f hf
    obtain ⟨-, -, n, -, hn⟩ := normal_iff.mp (hfs f hf)
    exact ⟨n, hn⟩

theorem allJoin_ok {fs : List Factor} (h : AllWhole fs) : allJoin fs = .ok true := by
  induction fs with
  | nil => rfl
  | cons f fs ih =>
    obtain ⟨⟨n, hn⟩, hfs⟩ := List.forall_mem_cons.mp h
    simp [allJoin, joins, hn, ih hfs]

theorem raised_ok {fs : List Factor} (h : AllWhole fs) (n : Int) :
    Product.raised fs n = .ok (fs.map (raisedBy n)) := by
  have hwhole : Tree.number (.exact n) = .whole n := rfl
  apply mapM_eq_ok_map
  intro f hf
  obtain ⟨m, hm⟩ := h f hf
  simp [hwhole, hm, raisedBy]

theorem product?_raised {fs : List Factor} {n : Int} {y : Rat} (h : AllWhole fs)
    (hy : product? I fs = some y) (hn : y ≠ 0 ∨ 0 ≤ n) :
    product? I (fs.map (raisedBy n)) = some (y ^ n) := by
  induction fs generalizing y with
  | nil =>
    obtain rfl : (1 : Rat) = y := Option.some.inj hy
    simp
  | cons f fs ih =>
    obtain ⟨base, exponent⟩ := f
    obtain ⟨⟨e, he⟩, hfs⟩ := List.forall_mem_cons.mp h
    simp only at he
    subst he
    obtain ⟨a, b, ha, hb, rfl⟩ := product?_cons_eq_some.mp hy
    obtain ⟨x, hx, he, rfl⟩ := meaning?_whole.mp ha
    have hsides : (x ^ e ≠ 0 ∨ 0 ≤ n) ∧ (b ≠ 0 ∨ 0 ≤ n) := by
      rcases hn with hn | hn
      · exact (mul_ne_zero_iff.mp hn).imp .inl .inl
      · exact ⟨.inr hn, .inr hn⟩
    have hen : x ≠ 0 ∨ 0 ≤ e * n := by
      by_cases hx0 : x = 0
      · subst hx0
        have he0 : 0 ≤ e := he.resolve_left (by simp)
        rcases hsides.1 with hpow | hn
        · obtain rfl : e = 0 := by
            by_contra hne
            exact hpow (zero_zpow e hne)
          simp
        · exact .inr (Int.mul_nonneg he0 hn)
      · exact .inl hx0
    refine product?_cons_eq_some.mpr ⟨_, _, meaning?_whole.mpr ⟨x, hx, ?_, rfl⟩,
      ih hfs hb hsides.2, ?_⟩
    · simpa using hen
    · rw [Tree.wholePart_whole, zpow_mul, mul_zpow]

theorem weight_raised (w : Tree → Int) (n : Int) (fs : List Factor) :
    weight w (fs.map (raisedBy n)) = n * weight w fs := by
  induction fs with
  | nil => simp [weight]
  | cons f fs ih =>
    simp only [List.map_cons, weight, ih, raisedBy, Tree.wholePart_whole]
    ring

theorem totalDegree_raised (least : Nat) (n : Int) (fs : List Factor) :
    totalDegree least (fs.map (raisedBy n)) = n.natAbs * totalDegree least fs := by
  induction fs with
  | nil => simp [totalDegree]
  | cons f fs ih =>
    obtain ⟨base, exponent⟩ := f
    simp only [List.map_cons, totalDegree, ih, raisedBy, degree, Tree.wholePart_whole,
      Int.natAbs_mul]
    ring

end Factor

end SymbolicAlgebra
