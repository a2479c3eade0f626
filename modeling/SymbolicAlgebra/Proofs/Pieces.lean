import SymbolicAlgebra.Proofs.Distribution

/-!
# Taking expanded trees apart

What a tree expands to is normal, a power other than the first or a call. Such a tree is taken apart
into pieces whose product it is: its coefficient and the powers in a normal term without a
denominator, and otherwise the tree as a whole. It also has summands of which it is the sum.
-/

namespace SymbolicAlgebra

open Outcome

variable {I : Interpretation}

/-- A tree as it comes out of an expansion. -/
def Tree.IsExpanded : Tree → Prop
  | .power ⟨_, e⟩ => ∃ n : Int, n ≠ 1 ∧ e = .whole n
  | .call .. => True
  | t => t.Normal

theorem Tree.Normal.isExpanded {t : Tree} (h : t.Normal) : t.IsExpanded := by
  cases t with
  | power f => exact h.elim
  | call f args => trivial
  | _ => exact h

theorem Tree.Normal.pieces_sum {ts : List Term} (h : (Tree.sum ts).Normal) :
    (Tree.sum ts).pieces = .ok [.sum ts] := by
  cases ts with
  | nil => exact absurd h.1 (by simp)
  | cons t rest =>
    cases rest with
    | nil => exact absurd h.1 (by simp)
    | cons t' rest => rfl

namespace Factor

/-- The piece that a factor of a normal term makes. -/
theorem Normal.pieces {f : Factor} (h : f.Normal) :
    ∃ p, f.pieces = .ok [p] ∧ p.toFactor = f ∧ p ≠ .sum [] ∧ (p = f.base ∨ p = .power f) := by
  obtain ⟨base, exponent⟩ := f
  obtain ⟨hatom, hnormal, n, -, rfl⟩ := h
  by_cases hn : n = 1
  · subst hn
    refine ⟨base, ?_, ?_, ?_, .inl rfl⟩
    · simp only [Factor.pieces, Tree.isOne_whole, ok_bind, decide_true, if_true]
      cases base with
      | number _ | power _ | term _ => exact hatom.elim
      | sum ts => exact hnormal.pieces_sum
      | _ => rfl
    · cases base with
      | number _ | power _ | term _ => exact hatom.elim
      | _ => simp [Tree.toFactor, Tree.whole_one]
    · rintro rfl
      simp [Tree.Normal] at hnormal
  · exact ⟨.power ⟨base, .whole n⟩, by simp [Factor.pieces, hn], rfl, by simp, .inr rfl⟩

theorem piecesOfAll_ok {fs : List Factor} (h : ∀ f ∈ fs, f.Normal) :
    ∃ ps, piecesOfAll fs = .ok ps ∧ ps.map Tree.toFactor = fs ∧
      ∀ p ∈ ps, p ≠ .sum [] ∧ ∃ f ∈ fs, p = f.base ∨ p = .power f := by
  induction fs with
  | nil => exact ⟨[], rfl, rfl, by simp⟩
  | cons f fs ih =>
    obtain ⟨hf, hfs⟩ := List.forall_mem_cons.mp h
    obtain ⟨p, hp, hfactor, hne, hfrom⟩ := hf.pieces
    obtain ⟨ps, hps, hfactors, hall⟩ := ih hfs
    refine ⟨p :: ps, by simp [piecesOfAll, hp, hps], by simp [hfactor, hfactors], ?_⟩
    refine List.forall_mem_cons.mpr ⟨⟨hne, f, List.mem_cons_self, hfrom⟩, fun p hp => ?_⟩
    obtain ⟨hne, g, hg, hfrom⟩ := hall p hp
    exact ⟨hne, g, List.mem_cons_of_mem _ hg, hfrom⟩

end Factor

/-- The pieces make up the tree, and each of them is no larger. -/
structure Tree.PartsOf (I : Interpretation) (width : Nat) (q : Rat) (e : Tree) (ps : List Tree) :
    Prop where
  product : Factor.product? I (ps.map toFactor) = some q
  degree_le : Factor.totalDegree 1 (ps.map toFactor) ≤ e.degree 1
  length_le : ps.length ≤ width + 1
  each : ∀ p ∈ ps, p.Fits 1 width ∧ p.effort ≤ e.effort ∧ p ≠ .sum []

variable {width : Nat} {q : Rat}

theorem Tree.partsOf_self {e : Tree} (hfits : e.Fits 1 width) (hq : e.meaning? I = some q)
    (hne : e ≠ .sum []) : PartsOf I width q e [e] := by
  refine ⟨?_, ?_, Nat.le_add_left _ _, List.forall_mem_singleton.mpr ⟨hfits, le_rfl, hne⟩⟩
  · exact (Factor.product?_singleton _).trans ((toFactor_meaning e).trans hq)
  · simp [Factor.totalDegree, (toFactor_fits hfits).2]

theorem Tree.PartsOf.tail {e : Tree} {ps : List Tree}
    (h : PartsOf I width q e (.number (.exact 1) :: ps)) : PartsOf I width q e ps := by
  obtain ⟨a, b, ha, hb, rfl⟩ := Factor.product?_cons_eq_some.mp h.product
  rw [toFactor_meaning] at ha
  obtain rfl : (1 : Rat) = a := Option.some.inj ha
  refine ⟨by rwa [one_mul], ?_, (Nat.le_succ _).trans h.length_le,
    fun p hp => h.each p (List.mem_cons_of_mem _ hp)⟩
  exact (Nat.le_add_left _ _).trans h.degree_le

namespace Term

variable {t : Term}

theorem partsOf_top {m : Rat} {ps : List Tree} (hfits : (Tree.term t).Fits 1 width)
    (hq : t.meaning? I = some q) (hm : t.multiplier = .exact m)
    (hone : t.denominatorIsOne = .ok true)
    (hfactors : ps.map Tree.toFactor = t.top ∨
      ps = [] ∧ Factor.product? I t.top = some 1)
    (hps : ∀ p ∈ ps, p ≠ .sum [] ∧ ∃ f ∈ t.top, p = f.base ∨ p = .power f) :
    Tree.PartsOf I width q (.term t) (.number t.multiplier :: ps) := by
  obtain ⟨m', d, n, k, hm', hd, hn, hk, -, -, rfl⟩ := meaning?_eq_some.mp hq
  obtain rfl : m' = m := by simpa [hm] using hm'.symm
  obtain ⟨rfl, rfl⟩ := denominatorIsOne_sound hone hd hk
  obtain ⟨-, hlength, hall⟩ := Tree.fits_term.mp hfits
  have hnumber : (Tree.number t.multiplier).toFactor.meaning? I = some m' := by
    rw [hm, Tree.toFactor_meaning]
    rfl
  refine ⟨?_, ?_, ?_, List.forall_mem_cons.mpr ⟨⟨Tree.fits_number _, ?_, by simp⟩, ?_⟩⟩
  · refine Factor.product?_cons_eq_some.mpr ⟨m', n, hnumber, ?_, by rw [mul_one, div_one]⟩
    rcases hfactors with htop | ⟨rfl, htop⟩
    · exact htop ▸ hn
    · exact htop.symm.trans hn
  · have hzero : (Tree.number t.multiplier).toFactor.degree 1 = 0 := by
      simp [Tree.toFactor, Factor.degree, Tree.degree]
    have hle : Factor.totalDegree 1 (ps.map Tree.toFactor) ≤ Factor.totalDegree 1 t.top := by
      rcases hfactors with htop | ⟨rfl, -⟩
      · rw [htop]
      · exact Nat.zero_le _
    simp only [List.map_cons, Factor.totalDegree, hzero, Tree.degree, t.degree_eq]
    omega
  · have hle : ps.length ≤ t.top.length := by
      rcases hfactors with htop | ⟨rfl, -⟩
      · rw [← htop, List.length_map]
      · exact Nat.zero_le _
    simp only [List.length_cons]
    omega
  · exact t.effort_pos
  · intro p hp
    obtain ⟨hne, f, hf, hfrom⟩ := hps p hp
    have hmem : f ∈ t.top ++ t.bottom := List.mem_append_left _ hf
    have hffits := hall f hmem
    have hlt : f.base.effort < t.effort := base_effort_lt hmem
    obtain ⟨base, exponent⟩ := f
    rcases hfrom with rfl | rfl
    · exact ⟨(Tree.fits_power.mp hffits).2.2, hlt.le, hne⟩
    · refine ⟨hffits, ?_, hne⟩
      have hpower : 1 + base.effort ≤ t.effort := by
        simp only at hlt
        omega
      exact hpower

theorem unwrappedPieces_whole (h : t.denominatorIsOne = .ok false) :
    t.unwrappedPieces = .ok [.term t] := by
  obtain ⟨multiplier, divisor, top, bottom⟩ := t
  match top, h with
  | [⟨base, exponent⟩], h => simp [unwrappedPieces, h]
  | [], h | _ :: _ :: _, h =>
    rw [unwrappedPieces]
    · simp [h]
    · simp

theorem Normal.unwrappedPieces_ok (h : t.Normal) (hfits : (Tree.term t).Fits 1 width)
    (hq : t.meaning? I = some q) :
    ∃ ps, t.unwrappedPieces = .ok ps ∧ Tree.PartsOf I width q (.term t) ps := by
  obtain ⟨⟨m, hm⟩, -, htop, -⟩ := normal_iff.mp h
  obtain ⟨one, hone⟩ := h.denominatorIsOne_ok
  cases one with
  | false => exact ⟨_, unwrappedPieces_whole hone, Tree.partsOf_self hfits hq (by simp)⟩
  | true =>
    obtain ⟨multiplier, divisor, top, bottom⟩ := t
    rcases htop with hplaceholder | ⟨hne, hnormal⟩
    · obtain rfl : top = [.placeholder] := hplaceholder
      have hpieces : unwrappedPieces ⟨multiplier, divisor, [.placeholder], bottom⟩ =
          .ok [.number multiplier] := by
        have hplain : Factor.isOne ⟨.one, .one⟩ = .ok true := Factor.isOne_placeholder
        simp only [Factor.placeholder] at hone ⊢
        simp [unwrappedPieces, hone, hplain]
      refine ⟨_, hpieces, partsOf_top hfits hq hm hone (.inr ⟨rfl, ?_⟩) (by simp)⟩
      simp [Factor.product?_singleton]
    · obtain ⟨ps, hps, hfactors, hall⟩ := Factor.piecesOfAll_ok hnormal
      have hparts := partsOf_top hfits hq hm hone (.inl hfactors) hall
      cases top with
      | nil => exact absurd rfl hne
      | cons f rest =>
      cases rest with
      | nil =>
        obtain ⟨base, exponent⟩ := f
        have hfactor : (⟨base, exponent⟩ : Factor).Normal := hnormal _ (List.mem_singleton_self _)
        obtain ⟨-, -, n, -, he⟩ := Factor.normal_iff.mp hfactor
        obtain rfl : exponent = .whole n := he
        obtain ⟨p, hp, -⟩ := hfactor.pieces
        obtain rfl : ps = [p] := by simpa [Factor.piecesOfAll, hp, eq_comm] using hps
        by_cases hm1 : multiplier.isOne = true
        · by_cases hn1 : n = 1
          · -- nothing but a first power: the coefficient is left out
            subst hn1
            have hbase : base.pieces = .ok [p] := by simpa [Factor.pieces] using hp
            refine ⟨[p], by simp [unwrappedPieces, hone, hfactor.isOne, hm1, hbase], ?_⟩
            obtain rfl : multiplier = .exact m := hm
            obtain rfl : m = 1 := by simpa using hm1
            exact hparts.tail
          · exact ⟨_, by simp [unwrappedPieces, hone, hfactor.isOne, hm1, hn1, hp], hparts⟩
        · exact ⟨_, by simp [unwrappedPieces, hone, hfactor.isOne, hm1, hp], hparts⟩
      | cons g rest =>
        refine ⟨_, ?_, hparts⟩
        rw [unwrappedPieces]
        · simp [hone, hps]
        · simp

end Term

theorem Tree.pieces_ok {e : Tree} (h : e.IsExpanded) (hfits : e.Fits 1 width)
    (hq : e.meaning? I = some q) : ∃ ps, e.pieces = .ok ps ∧ PartsOf I width q e ps := by
  cases e with
  | power f =>
    obtain ⟨base, exponent⟩ := f
    obtain ⟨n, hn, rfl⟩ := h
    exact ⟨_, by simp [pieces, Factor.pieces, hn], partsOf_self hfits hq (by simp)⟩
  | term t => exact Term.Normal.unwrappedPieces_ok h hfits hq
  | sum ts =>
    have hne : Tree.sum ts ≠ .sum [] := by
      rintro ⟨⟩
      exact absurd h.1 (by simp)
    exact ⟨_, Normal.pieces_sum h, partsOf_self hfits hq hne⟩
  | _ => exact ⟨_, rfl, partsOf_self hfits hq (by simp)⟩

/-- The terms have a value as a sum and are slim, and their effort is no higher than that of a term
made of the tree. -/
structure Tree.SummandsOf (I : Interpretation) (width : Nat) (q : Rat) (e : Tree)
    (ts : List Term) : Prop where
  total : Term.total? I ts = some q
  slim : ∀ t ∈ ts, t.IsSlim width width (e.degree 1)
  effort_le : Term.totalEffort ts ≤ 1 + e.effort

theorem Tree.toTerm_slim {e : Tree} (hwidth : 3 ≤ width) (hfits : e.Fits 1 width)
    (hq : e.meaning? I = some q) :
    ∃ t, e.toTerm = .ok t ∧ t.meaning? I = some q ∧ t.IsSlim width width (e.degree 1) ∧
      t.effort ≤ 1 + e.effort := by
  have hfactor : ∀ {s : Tree}, s.Fits 1 width → s.meaning? I = some q →
      ∃ t, Term.ofFactor s.toFactor = .ok t ∧ t.meaning? I = some q ∧
        t.IsSlim width width (s.degree 1) ∧ t.effort ≤ 1 + s.effort := by
    intro s hfits hq
    obtain ⟨hfit, hdegree⟩ := toFactor_fits hfits
    have hproduct := (Factor.product?_singleton s.toFactor).trans ((toFactor_meaning s).trans hq)
    obtain ⟨t, ht, htq, hslim, heffort⟩ := Term.of_fits (m := 1) (d := 1)
      ((by omega : 2 ≤ 3).trans hwidth) hfit (List.forall_mem_nil _) s.effort_pos hproduct
      Factor.product?_nil one_ne_zero one_ne_zero
    refine ⟨t, ht, htq.trans (by simp), hslim.mono hwidth ?_, heffort⟩
    simp [Factor.totalDegree, hdegree]
  have hterm : ∀ {t : Term}, (Tree.term t).Fits 1 width → t.IsSlim width width (t.degree 1) := by
    intro t hfits
    obtain ⟨-, hlength, hall⟩ := fits_term.mp hfits
    exact ⟨hall, hlength, le_rfl⟩
  cases e with
  | number v =>
    obtain rfl := meaning?_number_eq_some.mp hq
    exact ⟨_, rfl, Term.meaning?_ofValue q,
      Term.ofValue_slim _ ((by omega : 2 ≤ 3).trans hwidth), le_rfl⟩
  | term t => exact ⟨t, rfl, hq, hterm hfits, Nat.le_add_left _ _⟩
  | sum ts =>
    obtain ⟨c, hc, hin⟩ := Tree.reduce_fits _ hfits
    have hcq := Tree.reduce_meaning _ hc hq
    have hle : 1 + c.effort ≤ 1 + (Tree.sum ts).effort := Nat.add_le_add_left hin.effort_le 1
    cases c with
    | number v =>
      obtain rfl := meaning?_number_eq_some.mp hcq
      exact ⟨Term.ofValue (.exact q), by simp [toTerm, hc], Term.meaning?_ofValue q,
        (Term.ofValue_slim _ ((by omega : 2 ≤ 3).trans hwidth)).mono le_rfl (Nat.zero_le _), hle⟩
    | term t =>
      exact ⟨t, by simp [toTerm, hc], hcq, (hterm hin.fits).mono le_rfl hin.degree_le,
        (Nat.le_add_left _ 1).trans hle⟩
    | _ =>
      obtain ⟨t, ht, htq, hslim, heffort⟩ := hfactor hin.fits hcq
      exact ⟨t, by simpa [toTerm, hc] using ht, htq, hslim.mono le_rfl hin.degree_le,
        heffort.trans hle⟩
  | _ => exact hfactor hfits hq

theorem Tree.summands_ok {e : Tree} (hwidth : normalWidth ≤ width) (h : e.IsExpanded)
    (hfits : e.Fits 1 width) (hq : e.meaning? I = some q) :
    ∃ ts, e.summands = .ok ts ∧ SummandsOf I width q e ts := by
  have hthree : 3 ≤ width := (by decide : 3 ≤ normalWidth).trans hwidth
  obtain ⟨t, ht, htq, hslim, heffort⟩ := Tree.toTerm_slim hthree hfits hq
  have hsingle : SummandsOf I width q e [t] :=
    ⟨(meaning?_sum_singleton t).trans htq, List.forall_mem_singleton.mpr hslim, heffort⟩
  cases e with
  | sum ts =>
    have hsum : SummandsOf I width q (.sum ts) ts := by
      refine ⟨hq, hfits.slim le_rfl le_rfl, ?_⟩
      simp only [effort]
      omega
    match ts, h.1 with
    | _ :: _ :: _, _ => exact ⟨_, rfl, hsum⟩
  | _ => exact ⟨[t], by simp [summands, ht], hsingle⟩

end SymbolicAlgebra
