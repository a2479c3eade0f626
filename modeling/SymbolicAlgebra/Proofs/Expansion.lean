import SymbolicAlgebra.Proofs.Pieces
import SymbolicAlgebra.Proofs.Simplification

/-!
# Expansion preserves meaning

By induction on the tree, what it expands to within sufficient steps has its value, a degree no
higher than its own, and an effort that its size bounds. The bound is a double power: it takes in
the product of the bounds of two parts, and for one more unit of size any power that comes up where
a factor is taken apart or a sum is raised.
-/

namespace SymbolicAlgebra

open Outcome

variable {I : Interpretation}

/-- A bound on the effort of what trees of a size expand to. -/
def Tree.room (size : Nat) : Nat := 2 ^ (2 ^ (32 * size) - 1)

namespace Tree

theorem room_mul (a b : Nat) : room a * room b ≤ room (a + b) := by
  unfold room
  rw [← Nat.pow_add]
  apply Nat.pow_le_pow_right (by decide)
  obtain ⟨x, hx⟩ : ∃ x, 2 ^ (32 * a) = x + 1 := Nat.exists_eq_succ_of_ne_zero (by positivity)
  obtain ⟨y, hy⟩ : ∃ y, 2 ^ (32 * b) = y + 1 := Nat.exists_eq_succ_of_ne_zero (by positivity)
  have hproduct : 2 ^ (32 * (a + b)) = x * y + x + y + 1 := by
    rw [Nat.mul_add, Nat.pow_add, hx, hy]
    ring
  rw [hx, hy, hproduct]
  omega

/-- One more unit of size makes room for a power of up to a million. -/
theorem room_pow (a : Nat) {k : Nat} (hk : k ≤ 2 ^ 21) : 8 * room a ^ k ≤ room (a + 1) := by
  unfold room
  rw [← Nat.pow_mul, show 8 = 2 ^ 3 from rfl, ← Nat.pow_add]
  apply Nat.pow_le_pow_right (by decide)
  obtain ⟨x, hx⟩ : ∃ x, 2 ^ (32 * a) = x + 1 := Nat.exists_eq_succ_of_ne_zero (by positivity)
  have hnext : 2 ^ (32 * (a + 1)) = (x + 1) * 2 ^ 32 := by
    rw [Nat.mul_add, Nat.pow_add, hx]
  have hle : x * k ≤ x * 2 ^ 21 := Nat.mul_le_mul_left x hk
  rw [hx, hnext, Nat.add_sub_cancel]
  omega

theorem room_mono {a b : Nat} (h : a ≤ b) : room a ≤ room b :=
  Nat.pow_le_pow_right (by decide)
    (Nat.sub_le_sub_right (Nat.pow_le_pow_right (by decide) (Nat.mul_le_mul_left 32 h)) 1)

theorem room_zero : room 0 = 1 := rfl

theorem room_pos (a : Nat) : 1 ≤ room a := Nat.one_le_two_pow

theorem room_succ (a : Nat) : 8 * room a ≤ room (a + 1) := by
  have h := room_pow a (k := 1) (by decide)
  rwa [Nat.pow_one] at h

theorem two_lt_room_one : 2 < room 1 := by
  have hsucc : 8 * room 0 ≤ room 1 := room_succ 0
  rw [room_zero] at hsucc
  omega

theorem room_takes {a m : Nat} (h : m < room a) : 1 + (1 + m) < room (1 + a) := by
  have hsucc := room_succ a
  rw [Nat.add_comm 1 a]
  omega

theorem room_takes_both {a b m n : Nat} (hm : m < room a) (hn : n < room b) :
    m + n < room (a + b) := by
  refine lt_of_lt_of_le ?_ (room_mul a b)
  obtain ⟨x, hx⟩ : ∃ x, room a = x + 1 := Nat.exists_eq_succ_of_ne_zero (by omega)
  obtain ⟨y, hy⟩ : ∃ y, room b = y + 1 := Nat.exists_eq_succ_of_ne_zero (by omega)
  have hproduct : (x + 1) * (y + 1) = x * y + x + y + 1 := by ring
  rw [hx, hy, hproduct]
  omega

/-- The number of factors that the pieces of a factor add to a term. -/
def spread : Nat := (normalWidth + 1) * (normalWidth + 2)

/-- The steps, and the bounds that they are made for, suffice for trees of a size. -/
structure Suffices (I : Interpretation) (n width limit size : Nat) : Prop where
  canonizes : Canonizes I width limit (canonicalWith n)
  steps : Term.enoughSteps width limit ≤ n
  room_le : room size ≤ limit
  width_ge : size * spread + 4 ≤ width

theorem Suffices.mono {n width limit size size' : Nat} (h : Suffices I n width limit size)
    (hsize : size' ≤ size) : Suffices I n width limit size' :=
  ⟨h.canonizes, h.steps, (room_mono hsize).trans h.room_le,
    (Nat.add_le_add_right (Nat.mul_le_mul_right _ hsize) 4).trans h.width_ge⟩

theorem Suffices.spread_le {n width limit size : Nat} (h : Suffices I n width limit (size + 1)) :
    spread ≤ width := by
  refine le_trans ?_ h.width_ge
  rw [Nat.add_mul, Nat.one_mul]
  omega

theorem Suffices.normalWidth_le {n width limit size : Nat} (h : Suffices I n width limit size) :
    normalWidth ≤ width := h.canonizes.width_ge

/-- What a tree with a value expands to. -/
structure IsExpansion (I : Interpretation) (degree bound : Nat) (q : Rat) (e : Tree) : Prop where
  meaning : e.meaning? I = some q
  fits : e.Fits 1 normalWidth
  degree_le : e.degree 1 ≤ degree
  effort_lt : 1 + e.effort < bound
  isExpanded : e.IsExpanded

theorem IsExpansion.mono {degree bound bound' : Nat} {q : Rat} {e : Tree}
    (h : e.IsExpansion I degree bound q) (hbound : bound ≤ bound') :
    e.IsExpansion I degree bound' q :=
  ⟨h.meaning, h.fits, h.degree_le, h.effort_lt.trans_le hbound, h.isExpanded⟩

theorem Normal.isExpansion {e : Tree} {degree bound : Nat} {q : Rat} (h : e.Normal)
    (hq : e.meaning? I = some q) (hdegree : e.degree 1 ≤ degree)
    (hmax : degree ≤ Value.maxExactExponent) (hbound : 1 + e.effort < bound) :
    e.IsExpansion I degree bound q :=
  ⟨hq, h.fits le_rfl e (hdegree.trans hmax), hdegree, hbound, h.isExpanded⟩

/-- An expanded tree is unwrapped to an expanded one. -/
theorem IsExpanded.reduce_ok {e : Tree} {q : Rat} (h : e.IsExpanded) (hq : e.meaning? I = some q) :
    ∃ c, e.reduce = .ok c ∧ c.IsExpanded := by
  cases e with
  | power f =>
    obtain ⟨base, exponent⟩ := f
    obtain ⟨n, hn, rfl⟩ := h
    exact ⟨.power ⟨base, .whole n⟩, by simp [reduce, Factor.reduce, hn], n, hn, rfl⟩
  | term t =>
    obtain ⟨c, hc, -, hnormal, -⟩ := Term.Normal.reduce_ok h hq
    exact ⟨c, hc, hnormal.isExpanded⟩
  | sum ts =>
    match ts, h with
    | [], h => exact ⟨_, rfl, h⟩
    | [_], h => exact absurd h.1 (by simp)
    | _ :: _ :: _, h => exact ⟨_, rfl, h⟩
  | _ => exact ⟨_, rfl, h⟩

section
variable {n width limit size degree : Nat} {q : Rat}

theorem canonicalWith_term_ok {t : Term} {count bound : Nat} (h : Suffices I n width limit size)
    (hslim : t.IsSlim width count degree) (hq : t.meaning? I = some q) (hcount : count ≤ width)
    (hmax : degree ≤ Value.maxExactExponent) (hlimit : t.effort ≤ limit)
    (hbound : 1 + t.effort < bound) :
    ∃ e, canonicalWith n (.term t) = .ok e ∧ e.IsExpansion I degree bound q := by
  obtain ⟨e, he, hnormal, hstands⟩ := h.canonizes.term_ok hslim hq hcount hmax hlimit
  have heffort := hstands.effort_le
  exact ⟨e, he, hnormal.isExpansion hstands.meaning hstands.degree_le hmax (by omega)⟩

theorem powerOut_ok {ts : List Term} {x : Rat} {k : Nat} (h : Suffices I n width limit (size + 1))
    (hts : (sum ts).IsExpansion I degree (room size) x) (hk : k ≤ maxExpandedPower)
    (hmax : k * degree ≤ Value.maxExactExponent) :
    ∃ e, (do (sum (← Term.powerOut n ts k)).reduce : Except Fault Tree) = .ok e ∧
      e.IsExpansion I (k * degree) (room (size + 1)) (x ^ k) := by
  have hnormal : (sum ts).Normal := hts.isExpanded
  have hne : ts ≠ [] := by
    rintro rfl
    exact absurd hnormal.1 (by simp)
  have hwidth : normalWidth + normalWidth + 2 ≤ width :=
    (by decide : normalWidth + normalWidth + 2 ≤ spread).trans h.spread_le
  have heffort : Term.totalEffort ts ≤ room size := by
    have hlt := hts.effort_lt
    simp only [effort] at hlt
    omega
  have hpower : Term.totalEffort ts ^ k ≤ room size ^ k := Nat.pow_le_pow_left heffort k
  have hroom : 8 * room size ^ k ≤ room (size + 1) := room_pow size (hk.trans (by decide))
  have hpos : 1 ≤ room size ^ k := Nat.one_le_pow _ _ (room_pos size)
  have hle := h.room_le
  obtain ⟨us, hus, hadds, husnormal⟩ := Term.powerOut_adds h.canonizes h.steps
    (hts.fits.slim h.normalWidth_le hts.degree_le) hne hts.meaning hwidth k hmax (by omega)
  obtain ⟨e, he, hstands, henormal⟩ := hadds.stands h.normalWidth_le hmax
  have hbound := hstands.effort_le
  refine ⟨e, by simp [hus, he], (henormal husnormal).isExpansion hstands.meaning
    hstands.degree_le hmax (by omega)⟩

theorem ofFactor_ok {t : Term} {x : Rat} {k : Int} (h : Suffices I n width limit (size + 1))
    (ht : (term t).IsExpansion I degree (room size) x) (hk : k.natAbs ≤ Value.maxExactExponent)
    (hx : x ≠ 0 ∨ 0 ≤ k) (hmax : k.natAbs * degree ≤ Value.maxExactExponent) :
    ∃ e, (do canonicalWith n (.term (← Term.ofFactor ⟨.term t, .whole k⟩)) : Except Fault Tree) =
      .ok e ∧ e.IsExpansion I (k.natAbs * degree) (room (size + 1)) (x ^ k) := by
  have hdegree : Factor.degree 1 ⟨.term t, .whole k⟩ ≤ k.natAbs * degree := by
    simpa [Factor.degree] using Nat.mul_le_mul_left k.natAbs ht.degree_le
  have hfit : Factor.AllFit width (term t).effort [⟨.term t, .whole k⟩] := by
    refine List.forall_mem_singleton.mpr ⟨fits_power.mpr ⟨?_, ⟨k, hk, rfl⟩, ?_⟩, le_rfl⟩
    · exact hdegree.trans hmax
    · exact ht.fits.mono le_rfl h.normalWidth_le
  have hproduct : Factor.product? I [⟨.term t, .whole k⟩] = some (x ^ k) :=
    (Factor.product?_singleton _).trans (Factor.meaning?_whole.mpr ⟨x, ht.meaning, hx, rfl⟩)
  have hthree : 3 ≤ width := (by decide : 3 ≤ normalWidth).trans h.normalWidth_le
  obtain ⟨u, hu, huq, hslim, heffort⟩ := Term.of_fits (m := 1) (d := 1)
    ((by omega : 2 ≤ 3).trans hthree) hfit (List.forall_mem_nil _) (effort_pos _) hproduct
    Factor.product?_nil one_ne_zero one_ne_zero
  have hu' : Term.ofFactor ⟨.term t, .whole k⟩ = .ok u := hu
  have hbound := ht.effort_lt
  have hroom := room_succ size
  have hlimit := h.room_le
  have hmeaning : u.meaning? I = some (x ^ k) := huq.trans (by simp)
  obtain ⟨e, he, hexpansion⟩ := canonicalWith_term_ok h
    (hslim.mono le_rfl (by simpa [Factor.totalDegree] using hdegree)) hmeaning hthree hmax
    (by omega) (show 1 + u.effort < room (size + 1) by omega)
  exact ⟨e, by rw [hu']; exact he, hexpansion⟩

end

end Tree

variable {n width limit : Nat}

theorem Factor.expandWith_of_base {base b : Tree} {k : Int} {x : Rat} {degree : Nat}
    (h : Tree.Suffices I n width limit (base.size + 1)) (hbase : base.expandWith n = .ok b)
    (hb : b.IsExpansion I degree (Tree.room base.size) x) (hk : k.natAbs ≤ Value.maxExactExponent)
    (hx : x ≠ 0 ∨ 0 ≤ k) (hmax : k.natAbs * degree ≤ Value.maxExactExponent) :
    ∃ e, Factor.expandWith n ⟨base, .whole k⟩ = .ok e ∧
      e.IsExpansion I (k.natAbs * degree) (Tree.room (base.size + 1)) (x ^ k) := by
  have hexponent : Tree.canonicalWith n (.whole k) = .ok (.whole k) := h.canonizes.number _
  have hsame : (Tree.whole k).expandWith n = .ok (.whole k) := rfl
  by_cases hk1 : k = 1
  · subst hk1
    refine ⟨b, by simp [Factor.expandWith, hbase, hsame, hexponent], ?_⟩
    simpa using hb.mono (Tree.room_mono (Nat.le_succ _))
  obtain ⟨c, hc, hexpanded⟩ := hb.isExpanded.reduce_ok hb.meaning
  obtain ⟨c', hc', hin⟩ := b.reduce_fits hb.fits
  obtain rfl : c = c' := Except.ok.inj (hc.symm.trans hc')
  have hcb : c.IsExpansion I degree (Tree.room base.size) x :=
    ⟨b.reduce_meaning hc hb.meaning, hin.fits, hin.degree_le.trans hb.degree_le,
      (Nat.add_le_add_left hin.effort_le 1).trans_lt hb.effort_lt, hexpanded⟩
  have hpower : (Tree.power ⟨b, .whole k⟩).IsExpansion I (k.natAbs * degree)
      (Tree.room (base.size + 1)) (x ^ k) := by
    have hdegree : (Tree.power ⟨b, .whole k⟩).degree 1 ≤ k.natAbs * degree := by
      simpa [Tree.degree, Factor.degree] using Nat.mul_le_mul_left k.natAbs hb.degree_le
    refine ⟨Factor.meaning?_whole.mpr ⟨x, hb.meaning, hx, rfl⟩, ?_, hdegree, ?_, k, hk1, rfl⟩
    · exact Tree.fits_power.mpr ⟨hdegree.trans hmax, ⟨k, hk, rfl⟩, hb.fits⟩
    · have hlt := hb.effort_lt
      have hroom := Tree.room_succ base.size
      simp only [Tree.effort, Factor.effort]
      omega
  cases c with
  | sum ts =>
    by_cases hrange : 0 ≤ k ∧ k ≤ maxExpandedPower
    · obtain ⟨hk0, hkmax⟩ := hrange
      lift k to ℕ using hk0
      obtain ⟨e, he, hexpansion⟩ := Tree.powerOut_ok h hcb (by exact_mod_cast hkmax) hmax
      refine ⟨e, ?_, by simpa using hexpansion⟩
      simpa [Factor.expandWith, hbase, hsame, hexponent, hk1, hc, hkmax] using he
    · exact ⟨_, by simp [Factor.expandWith, hbase, hsame, hexponent, hk1, hc, hrange], hpower⟩
  | term t =>
    obtain ⟨e, he, hexpansion⟩ := Tree.ofFactor_ok h hcb hk hx hmax
    refine ⟨e, ?_, hexpansion⟩
    simpa [Factor.expandWith, hbase, hsame, hexponent, hk1, hc] using he
  | _ => exact ⟨_, by simp [Factor.expandWith, hbase, hsame, hexponent, hk1, hc], hpower⟩

theorem Factor.size_eq (f : Factor) (h : (Tree.power f).Fits 0 width) :
    f.size = f.base.size + 2 := by
  obtain ⟨base, exponent⟩ := f
  obtain ⟨-, ⟨k, -, rfl⟩, -⟩ := Tree.fits_power.mp h
  simp only [Factor.size, Tree.whole, Tree.size]
  omega

theorem Factor.multiplyIn_pieces {base e : Tree} {ts : List Term} {count degree effort d : Nat}
    {a x : Rat} (h : Tree.Suffices I n width limit (base.size + 2))
    (hts : Term.Adds I width count degree effort a ts)
    (he : e.IsExpansion I d (Tree.room (base.size + 1)) x) (hcount : count + Tree.spread ≤ width)
    (hmax : degree + d ≤ Value.maxExactExponent)
    (hlimit : effort * Tree.room (base.size + 2) ≤ limit) :
    ∃ us, (do (← e.pieces).foldlM (Term.multiplyIn n) ts : Except Fault (List Term)) = .ok us ∧
      Term.Adds I width (count + Tree.spread) (degree + d) (effort * Tree.room (base.size + 2))
        (a * x) us := by
  obtain ⟨ps, hps, hparts⟩ := Tree.pieces_ok he.isExpanded he.fits he.meaning
  have hcount' : ps.length * (Tree.normalWidth + 2) ≤ Tree.spread :=
    Nat.mul_le_mul_right _ hparts.length_le
  have hdegree : Factor.totalDegree 1 (ps.map Tree.toFactor) ≤ d :=
    hparts.degree_le.trans he.degree_le
  have heffort : effort * (1 + e.effort) ^ ps.length ≤ effort * Tree.room (base.size + 2) := by
    apply Nat.mul_le_mul_left
    have hroom : 8 * Tree.room (base.size + 1) ^ ps.length ≤ Tree.room (base.size + 2) :=
      Tree.room_pow (base.size + 1) (hparts.length_le.trans (by decide))
    have hpower : (1 + e.effort) ^ ps.length ≤ Tree.room (base.size + 1) ^ ps.length :=
      Nat.pow_le_pow_left he.effort_lt.le _
    omega
  obtain ⟨us, hus, hadds⟩ := Term.foldlM_multiplyIn_adds h.canonizes h.steps hts hparts.each
    hparts.product (by omega) (by omega) (heffort.trans hlimit)
  exact ⟨us, by simp [hps, hus], hadds.mono (by omega) (by omega) heffort⟩

theorem Term.fraction_ok {size degree degree' effort : Nat} {ss ts : List Term} {a b : Rat}
    (h : Tree.Suffices I n width limit (size + 1))
    (hss : Adds I width width degree effort a ss) (hts : Adds I width width degree' effort b ts)
    (hb : b ≠ 0) (hmax : degree + degree' ≤ Value.maxExactExponent)
    (hroom : effort ≤ 2 * Tree.room size) :
    ∃ e, (do Tree.canonicalWith n (.term
        (← fraction (← (Tree.sum ss).reduce) (← (Tree.sum ts).reduce))) : Except Fault Tree) =
      .ok e ∧ e.IsExpansion I (degree + degree') (Tree.room (size + 1)) (a / b) := by
  obtain ⟨c, hc, hstands, -⟩ := hss.stands le_rfl (by omega)
  obtain ⟨d, hd, hstands', -⟩ := hts.stands le_rfl (by omega)
  obtain ⟨hfit, hdegree⟩ := Tree.toFactor_fits hstands.fits
  obtain ⟨hfit', hdegree'⟩ := Tree.toFactor_fits hstands'.fits
  have hfour : 4 ≤ width := (by decide : 4 ≤ Tree.normalWidth).trans h.normalWidth_le
  obtain ⟨u, hu, huq, hslim, heffort⟩ := of_fits (m := 1) ((by omega : 2 ≤ 4).trans hfour)
    (hfit.mono hstands.effort_le) (hfit'.mono hstands'.effort_le) (Nat.le_add_left 1 effort)
    ((Factor.product?_singleton _).trans ((Tree.toFactor_meaning c).trans hstands.meaning))
    ((Factor.product?_singleton _).trans ((Tree.toFactor_meaning d).trans hstands'.meaning))
    one_ne_zero hb
  have hu' : fraction c d = .ok u := hu
  have hmeaning : u.meaning? I = some (a / b) := huq.trans (by simp)
  have hle := hstands.degree_le
  have hle' := hstands'.degree_le
  have hslim' : u.IsSlim width 4 (degree + degree') := by
    refine hslim.mono le_rfl ?_
    simp only [Factor.totalDegree, hdegree, hdegree']
    omega
  have hnext := Tree.room_succ size
  have hpos := Tree.room_pos size
  have hlimit := h.room_le
  obtain ⟨e, he, hexpansion⟩ := Tree.canonicalWith_term_ok h hslim' hmeaning hfour hmax
    (by omega) (show 1 + u.effort < Tree.room (size + 1) by omega)
  exact ⟨e, by simp only [hc, hd, ok_bind, hu']; exact he, hexpansion⟩

theorem Term.canonicalSum_ok {ts us : List Term} {q : Rat}
    (h : Tree.Suffices I n width limit (Tree.sum ts).size) (htotal : total? I us = some q)
    (hus : ∀ u ∈ us, u.IsSlim Tree.normalWidth Tree.normalWidth (highestDegree 0 ts))
    (heffort : totalEffort us < Tree.room (sizes ts))
    (hmax : (Tree.sum ts).degree 0 ≤ Value.maxExactExponent) :
    ∃ e, (do Tree.canonicalWith n (.sum (← summed us)) : Except Fault Tree) = .ok e ∧
      e.IsExpansion I ((Tree.sum ts).degree 0) (Tree.room (Tree.sum ts).size) q := by
  have hdegree : highestDegree 0 ts ≤ (Tree.sum ts).degree 0 := le_max_right _ _
  have hsize : (Tree.sum ts).size = sizes ts + 1 := Nat.add_comm _ _
  have hsucc := Tree.room_succ (sizes ts)
  have hlimit := h.room_le
  rw [hsize] at hlimit ⊢
  obtain ⟨e, he, hnormal, hstands⟩ := h.canonizes.sum_ok hus htotal (hdegree.trans hmax) (by omega)
  have hbound := hstands.effort_le
  exact ⟨e, he, hnormal.isExpansion hstands.meaning (hstands.degree_le.trans hdegree) hmax (by omega)⟩

mutual

theorem Tree.expandWith_ok : (t : Tree) → {q : Rat} → Tree.Suffices I n width limit t.size →
    t.Fits 0 width → t.meaning? I = some q →
    ∃ e, t.expandWith n = .ok e ∧ e.IsExpansion I (t.degree 0) (Tree.room t.size) q
  | .number v, q, h, hfits, hq => by
    obtain rfl := Tree.meaning?_number_eq_some.mp hq
    exact ⟨_, rfl, Tree.Normal.isExpansion rfl hq le_rfl hfits.degree_le Tree.two_lt_room_one⟩
  | .constant c, q, h, hfits, hq =>
    ⟨_, rfl, Tree.Normal.isExpansion trivial hq le_rfl hfits.degree_le Tree.two_lt_room_one⟩
  | .variable x, q, h, hfits, hq =>
    ⟨_, rfl, Tree.Normal.isExpansion trivial hq le_rfl hfits.degree_le Tree.two_lt_room_one⟩
  | .power f, q, h, hfits, hq => by
    have hsize : f.base.size + 1 ≤ f.size := (Nat.le_succ _).trans (f.size_eq hfits).ge
    obtain ⟨e, he, hexpansion⟩ := f.expandWith_ok (h.mono hsize) hfits hq
    exact ⟨e, he, hexpansion.mono (Tree.room_mono hsize)⟩
  | .term t, q, h, hfits, hq => t.expandWith_ok h hfits hq
  | .sum ts, q, h, hfits, hq => by
    obtain ⟨hdegree, hterms⟩ := Tree.fits_sum.mp hfits
    obtain ⟨us, hus, htotal, hslim, heffort⟩ :=
      Term.expandedSummands_ok ts (h.mono (Nat.le_add_left _ _)) hterms hq
    obtain ⟨e, he, hexpansion⟩ := Term.canonicalSum_ok h htotal hslim heffort hdegree
    exact ⟨e, by simpa [Tree.expandWith, hus] using he, hexpansion⟩
  | .call f args, q, h, hfits, hq => by
    obtain ⟨qs, hqs, hf⟩ := Option.bind_eq_some_iff.mp hq
    obtain ⟨es, hes, hmeanings, hall, heffort⟩ :=
      Tree.expandAllWith_ok args (h.mono (Nat.le_add_left _ _)) (Tree.fits_call.mp hfits) hqs
    refine ⟨.call f es, by simp [Tree.expandWith, hes], ?_, Tree.fits_call.mpr hall, le_rfl, ?_,
      trivial⟩
    · simp [Tree.meaning?, hmeanings, hf]
    · exact Tree.room_takes heffort

theorem Factor.expandWith_ok : (f : Factor) → {q : Rat} →
    Tree.Suffices I n width limit (f.base.size + 1) → (Tree.power f).Fits 0 width →
    f.meaning? I = some q →
    ∃ e, f.expandWith n = .ok e ∧ e.IsExpansion I (f.degree 0) (Tree.room (f.base.size + 1)) q
  | ⟨base, exponent⟩, q, h, hfits, hq => by
    obtain ⟨hdegree, ⟨k, hk, rfl⟩, hbase⟩ := Tree.fits_power.mp hfits
    obtain ⟨x, hx, hxk, rfl⟩ := Factor.meaning?_whole.mp hq
    obtain ⟨b, hb, hexpansion⟩ := base.expandWith_ok (h.mono (Nat.le_succ _)) hbase hx
    have hmax : k.natAbs * base.degree 0 ≤ Value.maxExactExponent := by
      simpa [Tree.degree, Factor.degree] using hdegree
    obtain ⟨e, he, hexpansion'⟩ := Factor.expandWith_of_base h hb hexpansion hk hxk hmax
    exact ⟨e, he, by simpa [Factor.degree] using hexpansion'⟩

theorem Term.expandWith_ok : (t : Term) → {q : Rat} → Tree.Suffices I n width limit t.size →
    (Tree.term t).Fits 0 width → t.meaning? I = some q →
    ∃ e, t.expandWith n = .ok e ∧ e.IsExpansion I (t.degree 0) (Tree.room t.size) q
  | ⟨multiplier, divisor, top, bottom⟩, q, h, hfits, hq => by
    obtain ⟨m, d, a, b, hm, hd, ha, hb, hd0, hb0, rfl⟩ := Term.meaning?_eq_some.mp hq
    obtain rfl : multiplier = .exact m := hm
    obtain rfl : divisor = .exact d := hd
    obtain ⟨hdegree, -, hfactors⟩ := Tree.fits_term.mp hfits
    have hmax : Factor.totalDegree 0 top + Factor.totalDegree 0 bottom ≤ Value.maxExactExponent :=
      hdegree
    obtain ⟨size, hsize⟩ : ∃ size, 2 + Factor.sizes top + Factor.sizes bottom = size := ⟨_, rfl⟩
    have hnext : Term.size ⟨.exact m, .exact d, top, bottom⟩ = size + 1 := by
      simp only [Term.size]
      omega
    rw [hnext] at h ⊢
    have hside : ∀ fs : List Factor, Factor.sizes fs ≤ size →
        2 + Factor.sizes fs * Tree.spread ≤ width ∧ 2 * Tree.room (Factor.sizes fs) ≤ limit ∧
          2 * Tree.room (Factor.sizes fs) ≤ 2 * Tree.room size := by
      intro fs hfs
      have hcount : Factor.sizes fs * Tree.spread ≤ (size + 1) * Tree.spread :=
        Nat.mul_le_mul_right _ (hfs.trans (Nat.le_succ _))
      have hwidth := h.width_ge
      have hroom := Tree.room_mono hfs
      have hsucc := Tree.room_succ size
      have hlimit := h.room_le
      omega
    obtain ⟨hcount, hlimit, heffort⟩ := hside top (by omega)
    obtain ⟨hcount', hlimit', heffort'⟩ := hside bottom (by omega)
    obtain ⟨ss, hss, hadds⟩ := Factor.expandProductWith_ok top (h.mono (by omega))
      (fun f hf => hfactors f (List.mem_append_left _ hf)) ha (Term.Adds.ofValue m le_rfl) hcount
      (by omega) hlimit
    obtain ⟨ts, hts, hadds'⟩ := Factor.expandProductWith_ok bottom (h.mono (by omega))
      (fun f hf => hfactors f (List.mem_append_right _ hf)) hb (Term.Adds.ofValue d le_rfl) hcount'
      (by omega) hlimit'
    obtain ⟨e, he, hexpansion⟩ := Term.fraction_ok h
      (hadds.mono hcount (Nat.zero_add _).le heffort)
      (hadds'.mono hcount' (Nat.zero_add _).le heffort') (mul_ne_zero hd0 hb0) hmax le_rfl
    exact ⟨e, by simpa [Term.expandWith, hss, hts] using he, hexpansion⟩

theorem Factor.expandProductWith_ok : (fs : List Factor) → {output : List Term} →
    {count degree effort : Nat} → {a b : Rat} → Tree.Suffices I n width limit (Factor.sizes fs) →
    (∀ f ∈ fs, (Tree.power f).Fits 0 width) → Factor.product? I fs = some b →
    Term.Adds I width count degree effort a output →
    count + Factor.sizes fs * Tree.spread ≤ width →
    degree + Factor.totalDegree 0 fs ≤ Value.maxExactExponent →
    effort * Tree.room (Factor.sizes fs) ≤ limit →
    ∃ us, Factor.expandProductWith n output fs = .ok us ∧
      Term.Adds I width (count + Factor.sizes fs * Tree.spread)
        (degree + Factor.totalDegree 0 fs) (effort * Tree.room (Factor.sizes fs)) (a * b) us
  | [], output, count, degree, effort, a, b, _, _, hb, hadds, _, _, _ => by
    obtain rfl : (1 : Rat) = b := Option.some.inj hb
    exact ⟨output, rfl, by simpa [Factor.sizes, Factor.totalDegree, Tree.room_zero] using hadds⟩
  | f :: rest, output, count, degree, effort, a, b, h, hfits, hb, hadds, hcount, hmax, hlimit => by
    obtain ⟨hfirst, hrest⟩ := List.forall_mem_cons.mp hfits
    obtain ⟨x, y, hx, hy, rfl⟩ := Factor.product?_cons_eq_some.mp hb
    have hsize : Factor.sizes (f :: rest) = f.base.size + 2 + Factor.sizes rest := by
      rw [Factor.sizes, f.size_eq hfirst]
    rw [hsize] at h hcount hlimit ⊢
    simp only [Factor.totalDegree] at hmax ⊢
    have hroom : effort * Tree.room (f.base.size + 2) * Tree.room (Factor.sizes rest) ≤
        effort * Tree.room (f.base.size + 2 + Factor.sizes rest) := by
      rw [Nat.mul_assoc]
      exact Nat.mul_le_mul_left _ (Tree.room_mul _ _)
    have hlimit' : effort * Tree.room (f.base.size + 2) ≤ limit :=
      (Nat.mul_le_mul_left _ (Tree.room_mono (Nat.le_add_right _ _))).trans hlimit
    have hcount' : count + Tree.spread + Factor.sizes rest * Tree.spread ≤
        count + (f.base.size + 2 + Factor.sizes rest) * Tree.spread := by
      rw [Nat.add_mul, Nat.add_mul]
      omega
    obtain ⟨e, he, hexpansion⟩ := f.expandWith_ok (h.mono (by omega)) hfirst hx
    obtain ⟨us, hus, hadds'⟩ := Factor.multiplyIn_pieces (h.mono (Nat.le_add_right _ _)) hadds
      hexpansion (by omega) (by omega) hlimit'
    obtain ⟨vs, hvs, hadds''⟩ := Factor.expandProductWith_ok rest (h.mono (Nat.le_add_left _ _))
      hrest hy hadds' (hcount'.trans hcount) (by omega) (hroom.trans hlimit)
    refine ⟨vs, ?_, ?_⟩
    · obtain ⟨ps, hps, hus⟩ := bind_eq_ok.mp hus
      simp [Factor.expandProductWith, he, hps, hus, hvs]
    · rw [← mul_assoc]
      exact hadds''.mono hcount' (Nat.add_assoc _ _ _).le hroom

theorem Term.expandedSummands_ok : (ts : List Term) → {q : Rat} →
    Tree.Suffices I n width limit (Term.sizes ts) → (∀ t ∈ ts, (Tree.term t).Fits 0 width) →
    Term.total? I ts = some q →
    ∃ us, Term.expandedSummands n ts = .ok us ∧ Term.total? I us = some q ∧
      (∀ u ∈ us, u.IsSlim Tree.normalWidth Tree.normalWidth (Term.highestDegree 0 ts)) ∧
      Term.totalEffort us < Tree.room (Term.sizes ts)
  | [], q, _, _, hq => ⟨[], rfl, hq, by simp, Tree.room_pos _⟩
  | t :: rest, q, h, hfits, hq => by
    obtain ⟨ht, hrest⟩ := List.forall_mem_cons.mp hfits
    obtain ⟨x, y, hx, hy, rfl⟩ := Term.total?_cons_eq_some.mp hq
    obtain ⟨e, he, hexpansion⟩ := t.expandWith_ok (h.mono (Nat.le_add_right _ _)) ht hx
    obtain ⟨us, hus, hparts⟩ :=
      Tree.summands_ok le_rfl hexpansion.isExpanded hexpansion.fits hexpansion.meaning
    obtain ⟨vs, hvs, htotal, hslim, heffort⟩ :=
      Term.expandedSummands_ok rest (h.mono (Nat.le_add_left _ _)) hrest hy
    refine ⟨us ++ vs, by simp [Term.expandedSummands, he, hus, hvs], ?_, fun u hu => ?_, ?_⟩
    · exact Term.total?_append_eq_some.mpr ⟨x, y, hparts.total, htotal, rfl⟩
    · rcases List.mem_append.mp hu with hu | hu
      · exact (hparts.slim u hu).mono le_rfl (hexpansion.degree_le.trans (le_max_left _ _))
      · exact (hslim u hu).mono le_rfl (le_max_right _ _)
    · rw [Term.totalEffort_append]
      exact Tree.room_takes_both (hparts.effort_le.trans_lt hexpansion.effort_lt) heffort

theorem Tree.expandAllWith_ok : (ts : List Tree) → {qs : List Rat} →
    Tree.Suffices I n width limit (Tree.sizes ts) → (∀ t ∈ ts, t.Fits 0 width) →
    Tree.meanings? I ts = some qs →
    ∃ es, Tree.expandAllWith n ts = .ok es ∧ Tree.meanings? I es = some qs ∧
      (∀ e ∈ es, e.Fits 1 Tree.normalWidth) ∧ Tree.totalEffort es < Tree.room (Tree.sizes ts)
  | [], qs, _, _, hqs => ⟨[], rfl, hqs, by simp, Tree.room_pos _⟩
  | t :: rest, qs, h, hfits, hqs => by
    obtain ⟨ht, hrest⟩ := List.forall_mem_cons.mp hfits
    obtain ⟨x, xs, hx, hxs, rfl⟩ := Tree.meanings?_cons_eq_some.mp hqs
    obtain ⟨e, he, hexpansion⟩ := t.expandWith_ok (h.mono (Nat.le_add_right _ _)) ht hx
    obtain ⟨es, hes, hmeanings, hall, heffort⟩ :=
      Tree.expandAllWith_ok rest (h.mono (Nat.le_add_left _ _)) hrest hxs
    refine ⟨e :: es, by simp [Tree.expandAllWith, he, hes], ?_, ?_, ?_⟩
    · exact Tree.meanings?_cons_eq_some.mpr ⟨x, xs, hexpansion.meaning, hmeanings, rfl⟩
    · exact List.forall_mem_cons.mpr ⟨hexpansion.fits, hall⟩
    · have hlt := hexpansion.effort_lt
      exact Tree.room_takes_both (by omega) heffort

end

namespace Tree

/-- Expansion comes to an end within some number of steps. -/
theorem expand_ok {t : Tree} {q : Rat} (h : t.Moderate) (hq : t.meaning? I = some q) :
    ∃ e, t.expand = .ok e ∧ e.IsExpansion I (t.degree 0) (room t.size) q := by
  have hwidth : max t.size (Value.maxExactExponent + 2) ≤ t.size * spread + 4 := by
    have hpos : 1 ≤ t.size := t.effort_pos.trans_le t.effort_le_size
    have hspread : spread = 1055756 := by decide
    have hmax : Value.maxExactExponent = 1024 := rfl
    rw [hspread]
    omega
  have hcanonizes : Canonizes I (t.size * spread + 4) (room t.size) (canonicalWith
      (room t.size + Term.enoughSteps (t.size * spread + 4) (room t.size))) :=
    canonizes_canonicalWith ((le_max_right _ _).trans hwidth) le_rfl
  obtain ⟨e, he, hexpansion⟩ := t.expandWith_ok ⟨hcanonizes, Nat.le_add_left _ _, le_rfl, le_rfl⟩
    (h.fits.mono le_rfl hwidth) hq
  exact ⟨e, withinSteps_ok (fun hmn => t.expandWith_approximates hmn) he, hexpansion⟩

/-- Moderate terms whose sum has a value can be put in order and their sum expanded. -/
theorem expand_summed_ok {ts : List Term} {q : Rat} (hne : ts ≠ [])
    (h : ∀ t ∈ ts, (Tree.term t).Moderate) (hq : (sum ts).meaning? I = some q) :
    ∃ e, (Term.summed ts >>= fun ss => (sum ss).expand) = .ok e := by
  have hpowers : ∀ t ∈ ts, ∀ f ∈ t.top ++ t.bottom, (power f).HasWholeExponent :=
    fun t ht f hf => ((fits_term.mp (h t ht).fits).2.2 f hf _ (self_mem_nodes _)).2.2
  obtain ⟨ss, hss, hperm⟩ := Term.summed_ok hne hpowers
  have hmeaning : (sum ss).meaning? I = some q := (Term.total?_perm hperm).trans hq
  obtain ⟨e, he, -⟩ := expand_ok (moderate_sum fun t ht => h t (hperm.subset ht)) hmeaning
  exact ⟨e, by rw [hss]; exact he⟩

/-- Every moderate tree with a value expands, without a fault, to a tree of the same value. -/
theorem expand_meaning (I : Interpretation) (t : Tree) (q : Rat) (h : t.Moderate)
    (hq : t.meaning? I = some q) : ∃ e, t.expand = .ok e ∧ e.meaning? I = some q := by
  obtain ⟨e, he, hexpansion⟩ := expand_ok h hq
  exact ⟨e, he, hexpansion.meaning⟩

/-- `(x + y) ^ 2` with `x = 3` and `y = 4`. -/
theorem expand_meaning_of_square :
    let I : Interpretation := ⟨fun name => if name = "x" then 3 else 4, fun _ => 0, fun _ _ => none⟩
    let x : Term := ⟨.one, .one, [⟨.variable "x", .one⟩], [.placeholder]⟩
    let y : Term := ⟨.one, .one, [⟨.variable "y", .one⟩], [.placeholder]⟩
    ∃ e, (Tree.power ⟨.sum [x, y], .whole 2⟩).expand = .ok e ∧ e.meaning? I = some 49 := by
  intro I x y
  have hbottom : ∀ f ∈ [Factor.placeholder], (Tree.power f).Moderate :=
    List.forall_mem_singleton.mpr moderate_placeholder
  have hx : (Tree.term x).Moderate := moderate_term
    (List.forall_mem_singleton.mpr (moderate_variable "x").first) hbottom (by decide)
  have hy : (Tree.term y).Moderate := moderate_term
    (List.forall_mem_singleton.mpr (moderate_variable "y").first) hbottom (by decide)
  have hmoderate : (Tree.power ⟨.sum [x, y], .whole 2⟩).Moderate := Moderate.power
    (moderate_sum (List.forall_mem_cons.mpr ⟨hx, List.forall_mem_singleton.mpr hy⟩)) (by decide)
    (by decide)
  have hsum : (Tree.sum [x, y]).meaning? I = some 7 := by decide +kernel
  have hmeaning : (Tree.power ⟨.sum [x, y], .whole 2⟩).meaning? I = some 49 :=
    Factor.meaning?_whole.mpr ⟨7, hsum, .inl (by norm_num), by norm_num⟩
  exact expand_meaning I _ 49 hmoderate hmeaning

end Tree

end SymbolicAlgebra
