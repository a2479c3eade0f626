import SymbolicAlgebra.Proofs.Queue

/-!
# Gathering the factors of a term

A step of the queue keeps the meaning and the balance, and replaces an item by items that cost less.
So a queue runs to its end within as many steps as it costs.
-/

namespace SymbolicAlgebra

open Outcome

variable {I : Interpretation}

namespace Factor

variable {c : Tree} {n : Int}

theorem value?_of_plain {x : Rat} {v : Value} (hc : c.meaning? I = some x)
    (hv : c.plainValue? = .ok (some v)) (hx : x ≠ 0 ∨ 0 ≤ n)
    (hn : n.natAbs ≤ Value.maxExactExponent) :
    (⟨c, .whole n⟩ : Factor).value? = .ok (some (.exact (x ^ n))) := by
  obtain rfl := c.plainValue?_sound hv hc
  simp [Factor.value?, hv, Value.exactPower?_exact hx hn]

theorem value?_of_not_plain (hc : c.plainValue? = .ok none) :
    (⟨c, .whole n⟩ : Factor).value? = .ok none := by
  simp [Factor.value?, hc]

theorem normalize_ok {canonical : Tree → Except Fault Tree}
    (hnumber : ∀ v, canonical (.number v) = .ok (.number v)) {b : Tree}
    (hc : canonical b = .ok c) (hnormal : c.Normal) :
    (⟨b, .whole n⟩ : Factor).normalize canonical = .ok ⟨c, .whole n⟩ := by
  have hwhole : canonical (.whole n) = .ok (.whole n) := hnumber _
  simp only [normalize, hc, hwhole, ok_bind]
  cases c with
  | power f => exact hnormal.elim
  | _ => simp [join]

end Factor

/-- A normal tree is plain, an atom or a term of positive degree. -/
theorem Tree.Normal.cases {c : Tree} (h : c.Normal) :
    (∃ v, c.plainValue? = .ok (some v)) ∨
      c.plainValue? = .ok none ∧ (c.IsAtom ∨ ∃ t, c = .term t ∧ 0 < t.degree 1) := by
  obtain ⟨r, hr⟩ := h.plainValue?_ok
  cases r with
  | some v => exact .inl ⟨v, hr⟩
  | none =>
    refine .inr ⟨hr, ?_⟩
    cases c with
    | number v => simp [Tree.plainValue?] at hr
    | power f => exact h.elim
    | term t =>
      refine .inr ⟨t, rfl, Nat.pos_of_ne_zero fun hzero => ?_⟩
      obtain ⟨v, hv⟩ := h.isPlain hzero
      simp [hr] at hv
    | _ => exact .inl trivial

namespace Product

variable {canonical : Tree → Except Fault Tree}

section
variable {f : Factor} {c : Tree} {n : Int} (hf : f.normalize canonical = .ok ⟨c, .whole n⟩)
  (p : Product) (onTop : Bool)
include hf

theorem step_zero (hn : n = 0) : p.step canonical ⟨f, onTop⟩ = .ok (p, []) := by
  subst hn
  simp [step, hf]

theorem step_plain {v : Value} (hn : n ≠ 0) (hv : (⟨c, .whole n⟩ : Factor).value? = .ok (some v)) :
    p.step canonical ⟨f, onTop⟩ = (do return (← p.fold v onTop, [])) := by
  simp [step, hf, hn, hv]

theorem step_atom (hn : n ≠ 0) (hatom : c.IsAtom)
    (hv : (⟨c, .whole n⟩ : Factor).value? = .ok none) :
    p.step canonical ⟨f, onTop⟩ = (do return (← p.gather canonical ⟨c, .whole n⟩ onTop, [])) := by
  cases c with
  | number _ | power _ | term _ => exact hatom.elim
  | _ => simp [step, hf, hn, hv]

end

theorem step_term {f : Factor} {t : Term} {n : Int} {m d : Rat}
    (hf : f.normalize canonical = .ok ⟨.term t, .whole n⟩) (p : Product) (onTop : Bool) (hn : n ≠ 0)
    (hv : (⟨.term t, .whole n⟩ : Factor).value? = .ok none)
    (htop : Factor.AllWhole t.top) (hbottom : Factor.AllWhole t.bottom)
    (hm : t.multiplier = .exact m) (hm0 : m ≠ 0 ∨ 0 ≤ n) (hd : t.divisor = .exact d) (hd0 : d ≠ 0)
    (hlimit : n.natAbs ≤ Value.maxExactExponent) :
    p.step canonical ⟨f, onTop⟩ = (do
      return (← p.multiplyBy (.exact (m ^ n)) (.exact (d ^ n)) onTop,
        items (t.top.map (.raisedBy n)) (t.bottom.map (.raisedBy n)) onTop)) := by
  have hjoin : Factor.allJoin (t.top ++ t.bottom) = .ok true := by
    apply Factor.allJoin_ok
    intro g hg
    exact (List.mem_append.mp hg).elim (htop g) (hbottom g)
  simp [step, hf, hn, hv, hjoin, hm, hd, Value.pow_exact hm0 hlimit,
    Value.pow_exact (.inl hd0) hlimit, Factor.raised_ok htop, Factor.raised_ok hbottom]

/-- The items fit, and their costs add up to no more than the budget. -/
def Affords (width : Nat) : Nat → List Item → Prop
  | _, [] => True
  | budget, item :: rest => ∃ least cost, (Tree.power item.factor).Fits least width ∧
      1 + 3 * item.factor.base.effort * item.factor.degree least + cost ≤ budget ∧
      Affords width cost rest

theorem affords_mono {width m n : Nat} {items : List Item} (hmn : m ≤ n)
    (h : Affords width m items) : Affords width n items := by
  cases items with
  | nil => trivial
  | cons item rest =>
    obtain ⟨least, cost, hfits, hle, hrest⟩ := h
    exact ⟨least, cost, hfits, hle.trans hmn, hrest⟩

theorem affords_append {width m n : Nat} {items items' : List Item} (h : Affords width m items)
    (h' : Affords width n items') : Affords width (m + n) (items ++ items') := by
  induction items generalizing m with
  | nil => exact affords_mono (Nat.le_add_left n m) h'
  | cons item items ih =>
    obtain ⟨least, cost, hfits, hle, hrest⟩ := h
    exact ⟨least, cost + n, hfits, by omega, ih hrest⟩

theorem affords_of_fits {width least effort : Nat} {items : List Item}
    (h : ∀ i ∈ items, (Tree.power i.factor).Fits least width ∧ i.factor.base.effort ≤ effort) :
    Affords width (items.length + 3 * effort * Factor.totalDegree least (items.map (·.factor)))
      items := by
  induction items with
  | nil => trivial
  | cons i items ih =>
    obtain ⟨⟨hfits, heffort⟩, hrest⟩ := List.forall_mem_cons.mp h
    refine ⟨least, _, hfits, ?_, ih hrest⟩
    have hcost : 3 * i.factor.base.effort * i.factor.degree least ≤
        3 * effort * i.factor.degree least :=
      Nat.mul_le_mul_right _ (Nat.mul_le_mul_left 3 heffort)
    simp only [List.length_cons, List.map_cons, Factor.totalDegree, Nat.mul_add]
    omega

/-- The powers of the factors of a normal term cost no more than three times the degree of what they
replace, for each of the efforts that are left. -/
theorem affords_raised {width : Nat} {t : Term} {n : Int} {onTop : Bool}
    (hwidth : Value.maxExactExponent + 2 ≤ width) (ht : t.Normal) (hpos : 0 < t.degree 1)
    (hn : n ≠ 0) (hlimit : n.natAbs ≤ Value.maxExactExponent)
    (hdegree : n.natAbs * t.degree 1 ≤ Value.maxExactExponent) :
    Affords width (3 * t.effort * (n.natAbs * t.degree 1))
      (items (t.top.map (.raisedBy n)) (t.bottom.map (.raisedBy n)) onTop) := by
  obtain ⟨-, -, htop, hbottom⟩ := Term.normal_iff.mp ht
  have hn' : 0 < n.natAbs := Int.natAbs_pos.mpr hn
  have hle : t.degree 1 ≤ n.natAbs * t.degree 1 := Nat.le_mul_of_pos_left _ hn'
  have hfits := Term.Normal.fits hwidth t ht (hle.trans hdegree)
  have hside : ∀ fs, Factor.NormalSide fs → Factor.totalDegree 1 fs ≤ t.degree 1 →
      (∀ f ∈ fs, f ∈ t.top ++ t.bottom) → ∀ f ∈ fs.map (.raisedBy n),
        (Tree.power f).Fits 1 width ∧ f.base.effort ≤ t.effort - 1 := by
    intro fs hfs htotal hmem f' hf'
    obtain ⟨f, hf, rfl⟩ := List.mem_map.mp hf'
    have heffort : f.base.effort ≤ t.effort - 1 :=
      Nat.le_sub_one_of_lt (Term.base_effort_lt (hmem f hf))
    have hbase := hfits.base f (hmem f hf)
    have hfdegree : n.natAbs * f.degree 1 ≤ Value.maxExactExponent :=
      (Nat.mul_le_mul_left _ ((Factor.degree_le_totalDegree hf).trans htotal)).trans hdegree
    obtain ⟨base, exponent⟩ := f
    have hpower : (Factor.raisedBy n ⟨base, exponent⟩).degree 1 ≤ Value.maxExactExponent := by
      simpa [Factor.raisedBy, Factor.degree, Int.natAbs_mul, Nat.mul_comm, Nat.mul_left_comm]
        using hfdegree
    refine ⟨Tree.fits_power.mpr ⟨hpower, ⟨exponent.wholePart * n, ?_, rfl⟩, hbase⟩, heffort⟩
    rcases hfs with rfl | ⟨-, hfs⟩
    · obtain ⟨rfl, rfl⟩ : base = .one ∧ exponent = .one := by
        simpa [Factor.placeholder] using hf
      simpa [← Tree.whole_one] using hlimit
    · have hatom := (Factor.normal_iff.mp (hfs _ hf)).1.degree_pos
      simp only [Factor.raisedBy, Factor.degree, Tree.wholePart_whole] at hpower
      exact (Nat.le_mul_of_pos_right _ hatom).trans hpower
  have hlength := htop.length_le
  have hlength' := hbottom.length_le
  have hsum : t.degree 1 = Factor.totalDegree 1 t.top + Factor.totalDegree 1 t.bottom :=
    t.degree_eq
  have hitems : ∀ i ∈ items (t.top.map (.raisedBy n)) (t.bottom.map (.raisedBy n)) onTop,
      (Tree.power i.factor).Fits 1 width ∧ i.factor.base.effort ≤ t.effort - 1 :=
    forall_mem_items (R := fun f => (Tree.power f).Fits 1 width ∧ f.base.effort ≤ t.effort - 1) <|
      List.forall_mem_append.mpr
        ⟨hside t.top htop (by omega) (fun f hf => List.mem_append_left _ hf),
          hside t.bottom hbottom (by omega) (fun f hf => List.mem_append_right _ hf)⟩
  have htotal : Factor.totalDegree 1 ((items (t.top.map (.raisedBy n))
      (t.bottom.map (.raisedBy n)) onTop).map (·.factor)) = n.natAbs * t.degree 1 := by
    simp [items, Function.comp_def, Factor.totalDegree_append, Factor.totalDegree_raised, hsum,
      Nat.mul_add]
  refine affords_mono ?_ (affords_of_fits hitems)
  obtain ⟨e, he⟩ : ∃ e, t.effort = e + 1 := ⟨t.effort - 1, by have := t.effort_pos; omega⟩
  rw [htotal, he, Nat.add_sub_cancel, Nat.mul_add, Nat.add_mul]
  simp only [items, List.length_append, List.length_map]
  omega

/-- What a product and items that mean `q` together come to: the second product and items mean the
same, balance the same for the tallies of all weights, and cost no more than the budget. -/
structure ComesTo (I : Interpretation) (canonical : Tree → Except Fault Tree)
    (width effort budget : Nat) (q : Rat) (p : Product) (items : List Item) (p' : Product)
    (items' : List Item) : Prop where
  gathered : p'.Gathered effort
  meaning : ∃ c v, p'.asTerm.meaning? I = some c ∧ itemsMeaning? I items' = some v ∧ c * v = q
  balance : ∀ u, p'.balance u + itemsBalance (·.tally canonical u) items' =
    p.balance u + itemsBalance (·.tally canonical u) items
  effort_le : ∀ i ∈ items', i.factor.base.effort ≤ effort
  affords : Affords width budget items'

theorem itemsBalance_singleton (w : Tree → Int) (b : Tree) (n : Int) (onTop : Bool) :
    itemsBalance w [⟨⟨b, .whole n⟩, onTop⟩] = if onTop then n * w b else -(n * w b) := by
  cases onTop <;> simp [itemsBalance, tops, bottoms, Factor.weight]

theorem balance_congr (w : Tree → Int) {p p' : Product} (htop : p'.top = p.top)
    (hbottom : p'.bottom = p.bottom) : p'.balance w = p.balance w := by
  rw [balance, balance, htop, hbottom]

theorem Gathered.congr {effort : Nat} {p p' : Product} (h : p.Gathered effort)
    (htop : p'.top = p.top) (hbottom : p'.bottom = p.bottom) : p'.Gathered effort :=
  ⟨htop ▸ h.top, hbottom ▸ h.bottom⟩

end Product

theorem Tree.Normal.tallyBy_of_plain {c : Tree} {v : Value} (h : c.Normal)
    (hv : c.plainValue? = .ok (some v)) (u w : Tree → Int) : c.tallyBy u w = 0 := by
  cases c with
  | number _ => rfl
  | power _ => exact h.elim
  | term t =>
    rcases Term.Normal.plainValue? h with ⟨htop, hbottom, -⟩ | hnone
    · simp only [Tree.tallyBy, htop, hbottom, sub_self]
    · cases hv.symm.trans hnone
  | _ => cases hv.symm.trans (IsAtom.plainValue? trivial h)

namespace Product

theorem itemsMeaning?_raised {t : Term} {n : Int} {onTop : Bool} {a k : Rat}
    (htop : Factor.AllWhole t.top) (hbottom : Factor.AllWhole t.bottom)
    (ha : Factor.product? I t.top = some a) (hk : Factor.product? I t.bottom = some k)
    (hk0 : k ≠ 0) (hn : a ≠ 0 ∨ 0 ≤ n) (ha0 : onTop = true ∨ a ≠ 0) :
    itemsMeaning? I (items (t.top.map (.raisedBy n)) (t.bottom.map (.raisedBy n)) onTop) =
      some (onSide onTop ((a / k) ^ n)) := by
  have ha' := Factor.product?_raised htop ha hn
  have hk' : Factor.product? I (t.bottom.map (.raisedBy n)) = some (k ^ n) :=
    Factor.product?_raised hbottom hk (.inl hk0)
  rw [itemsMeaning?_eq_some, tops_items, bottoms_items]
  cases onTop with
  | true => exact ⟨a ^ n, k ^ n, ha', hk', zpow_ne_zero n hk0, div_zpow a k n⟩
  | false =>
    have ha0' : a ≠ 0 := ha0.resolve_left (by simp)
    refine ⟨k ^ n, a ^ n, hk', ha', zpow_ne_zero n ha0', ?_⟩
    simp only [onSide, Bool.false_eq_true, if_false]
    rw [div_zpow, inv_div]

theorem step_ok {width limit effort least : Nat} (hcanonical : Canonizes I width limit canonical)
    (heffort : effort ≤ limit) {p : Product} {item : Item} {c v : Rat} (hp : p.Gathered effort)
    (hfits : (Tree.power item.factor).Fits least width)
    (hitem : item.factor.base.effort ≤ effort) (hc : p.asTerm.meaning? I = some c)
    (hv : itemsMeaning? I [item] = some v) :
    ∃ p' more, p.step canonical item = .ok (p', more) ∧
      ComesTo I canonical width effort (3 * item.factor.base.effort * item.factor.degree least)
        (c * v) p [item] p' more := by
  obtain ⟨⟨b, e⟩, onTop⟩ := item
  simp only at hfits hitem
  obtain ⟨hdegree, ⟨n, hn, rfl⟩, hbase⟩ := Tree.fits_power.mp hfits
  obtain ⟨y, hy, hy0, rfl⟩ := itemsMeaning?_singleton_eq_some.mp hv
  obtain ⟨x, hx, hxn, rfl⟩ := Factor.meaning?_whole.mp hy
  obtain ⟨f, hf, hform⟩ := hcanonical.tree hbase (hitem.trans heffort) hx
  have hfx := hform.meaning.trans hx
  have hnorm := Factor.normalize_ok (n := n) hcanonical.number hf hform.normal
  have htally : ∀ u, b.tally canonical u = f.tallyBy u (·.tally canonical u) :=
    fun u => Tree.tally_eq hf hform.effort_le
  by_cases hn0 : n = 0
  · subst hn0
    refine ⟨p, [], step_zero hnorm p onTop rfl, hp, ⟨c, 1, hc, itemsMeaning?_nil, ?_⟩,
      fun u => ?_, by simp, trivial⟩
    · cases onTop <;> simp [onSide]
    · rw [itemsBalance_singleton]
      simp [itemsBalance, tops, bottoms, Factor.weight]
  rcases hform.normal.cases with ⟨v, hv⟩ | ⟨hplain, hatom | ⟨t, rfl, hpos⟩⟩
  · -- the base is a number, and its power goes into a coefficient
    obtain ⟨p', hp', htop, hbottom, hmeaning⟩ := fold_ok hc hy0
    refine ⟨p', [], ?_, hp.congr htop hbottom, ⟨_, 1, hmeaning, itemsMeaning?_nil, by ring⟩,
      fun u => ?_, by simp, trivial⟩
    · rw [step_plain hnorm p onTop hn0 (Factor.value?_of_plain hfx hv hxn hn), hp']
      rfl
    · rw [itemsBalance_singleton, htally, hform.normal.tallyBy_of_plain hv, balance_congr _ htop hbottom]
      simp [itemsBalance, tops, bottoms, Factor.weight]
  · -- the base is an atom, and its power is gathered
    have hatomic : (⟨f, .whole n⟩ : Factor).IsAtomPower effort :=
      ⟨hatom, hform.tidy, hform.effort_le.trans hitem, n, rfl⟩
    obtain ⟨p', hp', hgathered, hmeaning, hbalance⟩ := gather_ok hcanonical.number hp hatomic hc
      (Factor.meaning?_whole.mpr ⟨x, hfx, hxn, rfl⟩) hy0
    refine ⟨p', [], ?_, hgathered, ⟨_, 1, hmeaning, itemsMeaning?_nil, by ring⟩,
      fun u => ?_, by simp, trivial⟩
    · rw [step_atom hnorm p onTop hn0 hatom (Factor.value?_of_not_plain hplain), hp']
      rfl
    · rw [hbalance, itemsBalance_singleton, itemsBalance_singleton, htally, hatom.tallyBy]
      simp [itemsBalance, tops, bottoms, Factor.weight]
  · -- the base is a term, and the powers of its factors take its place
    obtain ⟨-, -, htop, hbottom⟩ := Term.normal_iff.mp hform.normal
    obtain ⟨m, d, a, k, hm, hd, ha, hk, hd0, hk0, rfl⟩ := Term.meaning?_eq_some.mp hfx
    have hzero : ∀ {P : Prop}, P ∨ m * a / (d * k) ≠ 0 → (P ∨ m ≠ 0) ∧ (P ∨ a ≠ 0) := by
      rintro P (hP | hx)
      · exact ⟨.inl hP, .inl hP⟩
      · obtain ⟨hm0, ha0⟩ := mul_ne_zero_iff.mp (div_ne_zero_iff.mp hx).1
        exact ⟨.inr hm0, .inr ha0⟩
    obtain ⟨hm0, ha0⟩ := hzero hxn.symm
    obtain ⟨hm0', ha0'⟩ := hzero (hy0.imp_right fun h h0 => h (by rw [h0, zero_zpow n hn0]))
    have hpower : n.natAbs * t.degree 1 ≤ n.natAbs * b.degree least :=
      Nat.mul_le_mul_left _ hform.degree_le
    have hdegree' : n.natAbs * b.degree least ≤ Value.maxExactExponent := by
      simpa [Tree.degree, Factor.degree] using hdegree
    obtain ⟨p', hp', htop', hbottom', hmeaning⟩ := multiplyBy_ok hc
      (zpow_ne_zero n hd0) (hm0'.imp_right (zpow_ne_zero n))
    refine ⟨p', _, ?_, hp.congr htop' hbottom', ⟨_, _, hmeaning, itemsMeaning?_raised
      htop.allWhole hbottom.allWhole ha hk hk0 ha0.symm ha0', ?_⟩, fun u => ?_, fun i hi => ?_,
      affords_mono ?_ (affords_raised hcanonical.width_ge hform.normal hpos hn0 hn
        (hpower.trans hdegree'))⟩
    · rw [step_term hnorm p onTop hn0 (Factor.value?_of_not_plain hplain) htop.allWhole
        hbottom.allWhole hm hm0.symm hd hd0 hn, hp']
      rfl
    · rw [mul_assoc, ← onSide_mul, ← div_zpow, ← mul_zpow, div_mul_div_comm]
    · rw [itemsBalance_singleton, htally, balance_congr _ htop' hbottom']
      cases onTop <;>
        simp only [itemsBalance, tops_items, bottoms_items, Factor.weight_raised, Tree.tallyBy,
          if_true, Bool.false_eq_true, if_false] <;> ring
    · refine forall_mem_items (R := fun f => f.base.effort ≤ effort) ?_ i hi
      rw [← List.map_append]
      exact List.forall_mem_map.mpr fun f hf =>
        ((Term.base_effort_lt hf).le.trans hform.effort_le).trans hitem
    · exact Nat.mul_le_mul (Nat.mul_le_mul_left 3 hform.effort_le) hpower

theorem run_ok {width limit effort : Nat} (hcanonical : Canonizes I width limit canonical)
    (heffort : effort ≤ limit) (steps : Nat) {p : Product} {items : List Item} {c v : Rat}
    (hp : p.Gathered effort) (hc : p.asTerm.meaning? I = some c)
    (hv : itemsMeaning? I items = some v) (hitems : ∀ i ∈ items, i.factor.base.effort ≤ effort)
    (hsteps : Affords width steps items) :
    ∃ p', run canonical steps p items = .ok p' ∧ p'.Gathered effort ∧
      p'.asTerm.meaning? I = some (c * v) ∧
      ∀ u, p'.balance u = p.balance u + itemsBalance (·.tally canonical u) items := by
  induction steps generalizing p items c v with
  | zero =>
    cases items with
    | nil =>
      obtain rfl : (1 : Rat) = v := Option.some.inj (itemsMeaning?_nil.symm.trans hv)
      exact ⟨p, rfl, hp, by rwa [mul_one], fun u => (Int.add_zero _).symm⟩
    | cons item rest =>
      obtain ⟨_, _, _, hle, _⟩ := hsteps
      omega
  | succ steps ih =>
    cases items with
    | nil =>
      obtain rfl : (1 : Rat) = v := Option.some.inj (itemsMeaning?_nil.symm.trans hv)
      exact ⟨p, rfl, hp, by rwa [mul_one], fun u => (Int.add_zero _).symm⟩
    | cons item rest =>
      obtain ⟨least, cost, hfits, hle, hrest⟩ := hsteps
      obtain ⟨hitem, hothers⟩ := List.forall_mem_cons.mp hitems
      obtain ⟨x, y, hx, hy, rfl⟩ :=
        itemsMeaning?_append_eq_some.mp (show itemsMeaning? I ([item] ++ rest) = some v from hv)
      obtain ⟨p', more, hstep, hcomes⟩ := step_ok hcanonical heffort hp hfits hitem hc hx
      obtain ⟨c', v', hc', hv', hcv⟩ := hcomes.meaning
      have hqueue : itemsMeaning? I (rest ++ more) = some (y * v') :=
        itemsMeaning?_append_eq_some.mpr ⟨y, v', hy, hv', rfl⟩
      have hefforts : ∀ i ∈ rest ++ more, i.factor.base.effort ≤ effort := by
        intro i hi
        exact (List.mem_append.mp hi).elim (hothers i) (hcomes.effort_le i)
      have hbudget : Affords width steps (rest ++ more) :=
        affords_mono (by omega) (affords_append hrest hcomes.affords)
      obtain ⟨p'', hp'', hgathered, hmeaning, hbalance⟩ :=
        ih hcomes.gathered hc' hqueue hefforts hbudget
      refine ⟨p'', by simp [run, hstep, hp''], hgathered, ?_, fun u => ?_⟩
      · rw [hmeaning]
        congr 1
        calc c' * (y * v') = c' * v' * y := by ring
          _ = c * (x * y) := by rw [hcv]; ring
      · have hsplit := itemsBalance_append (·.tally canonical u) [item] rest
        have hstep' := hcomes.balance u
        rw [hbalance u, itemsBalance_append]
        simp only [List.singleton_append] at hsplit
        omega

end Product

end SymbolicAlgebra
