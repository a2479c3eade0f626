import SymbolicAlgebra.Proofs.FinalOutcome

/-!
# Simplifying twice

By induction on the size of a tree, what it is simplified to is a final form, up to the container
around a sum of a single term. Simplification leaves that as it is, so simplifying a second time
changes nothing. This needs that the terms of the sums in the tree are simplified to steady ones. A
multiple of a sum is multiplied out only if its coefficients come to one when it is added to others
like it, and a negative power below the fraction bar changes sides when its term is added to others:
then the terms of the outcome have not all been compared with each other.
-/

namespace SymbolicAlgebra

open Outcome

variable {I : Interpretation}

/-- The opposite of a final form, reduced, is canonical. -/
theorem Tree.IsFinal.opposite {t : Term} {c : Tree} (h : (term t).IsFinal I)
    (hc : (do (← t.scale .negativeOne).reduce : Except Fault Tree) = .ok c) : c.IsCanonical I := by
  obtain ⟨n, d, hn, hd, hpos, hcoprime⟩ := h.isFinal_self.lowest
  have hscale : t.scale .negativeOne = .ok { t with multiplier := .exact (-n : Int) } := by
    simp [Term.scale, hn, Value.negativeOne, Value.mul_exact]
  have hopposite : (term { t with multiplier := .exact (-n : Int) }).IsFinal I := by
    by_cases hn0 : n = 0
    · obtain rfl := h.isFinal_self.zero (by simp [hn, hn0])
      have hzero : ({ Term.zero with multiplier := .exact (-n : Int) } : Term) = .zero := by
        simp [hn0, Term.zero, Term.ofValue, Value.zero]
      rw [hzero]
      exact Term.zero_isFinal
    · refine h.of_sameFactors ⟨List.Perm.refl _, List.Perm.refl _⟩
        ⟨-n, d, rfl, hd, hpos, by rwa [Int.neg_gcd]⟩ ?_
      simpa using hn0
  rw [hscale, ok_bind] at hc
  obtain ⟨r, hr, hcanonical⟩ := hopposite.reduce
  obtain rfl := Except.ok.inj (hr.symm.trans hc)
  exact hcanonical

namespace Tree

/-- What simplification leaves as it is: a final form, a sum of final forms between which nothing is
left to do, even if there is one only, or a sum of nothing but a zero. -/
inductive IsFixed (I : Interpretation) : Tree → Prop
  | final {s : Tree} (h : s.IsFinal I) : IsFixed I s
  | sum {ts : List Term} (hne : ts ≠ []) (hts : Term.AreFinal ts)
      (hterms : ∀ t ∈ ts, (term t).IsFinal I) : IsFixed I (.sum ts)
  | zero : IsFixed I (.sum [.zero])

theorem simplify_of_simplifyWith {n : Nat} {t s : Tree} (h : t.simplifyWith n = .ok s) :
    t.simplify = .ok s :=
  withinSteps_ok (fun hmn => simplifyWith_approximates hmn t) h

theorem simplify_sum_zero : (sum [Term.zero]).simplify = .ok (sum [Term.zero]) := by
  obtain ⟨ss, hss, hperm⟩ := Term.sorted_ok (List.forall_mem_singleton.mpr Term.zero_rank_ok)
  obtain rfl := List.perm_singleton.mp hperm
  have hrun : Term.combineAll 1 (canonicalWith 1) 1 [] [Term.zero] = .ok [] := by
    rw [Term.combineAll_cons]
    rfl
  have hsum : Term.simplifySumBy 1 (canonicalWith 1) [Term.zero] = .ok [Term.zero] := by
    simp only [Term.simplifySumBy, hrun, ok_bind]
    exact hss
  exact simplify_of_simplifyWith (n := 2) (by simp [simplifyWith_succ, simplifyBy, hsum])

theorem IsFixed.simplify {s : Tree} (h : s.IsFixed I) : s.simplify = .ok s := by
  cases h with
  | final h => exact simplify_of_simplifyWith (h.simplifyWith_eq le_rfl)
  | zero => exact simplify_sum_zero
  | @sum ts hne hts hterms =>
    have hself : ∀ t ∈ ts, t.simplifyBy (Term.sizes ts) (canonicalWith (Term.sizes ts)) = .ok t := by
      intro t ht
      have hle := Term.size_le_of_mem_nodesOfAll ts
        (Term.mem_nodesOfAll.mpr ⟨t, ht, (term t).self_mem_nodes⟩)
      exact (hterms t ht).simplifyBy_eq (hle.trans (Nat.le_succ _))
    have hsum := Term.simplifySumBy_isFinal hne hts hself hterms (Term.length_le_sizes ts)
    exact simplify_of_simplifyWith (n := Term.sizes ts + 1)
      (by simp [simplifyWith_succ, simplifyBy, hsum])

theorem exists_total_of_isFinal {ts : List Term} (h : ∀ t ∈ ts, (term t).IsFinal I) :
    ∃ q, Term.total? I ts = some q := by
  induction ts with
  | nil => exact ⟨0, rfl⟩
  | cons t ts ih =>
    obtain ⟨ht, hts⟩ := List.forall_mem_cons.mp h
    obtain ⟨a, ha⟩ := ht.meaning
    obtain ⟨b, hb⟩ := ih hts
    exact ⟨a + b, Term.total?_cons_of ha hb⟩

theorem IsFixed.reduce {s c : Tree} (h : s.IsFixed I) (hc : s.reduce = .ok c) : c.IsCanonical I := by
  have hfinal : ∀ {s : Tree}, s.IsFinal I → s.reduce = .ok c → c.IsCanonical I := by
    intro s h hc
    obtain ⟨r, hr, hcanonical⟩ := h.reduce
    obtain rfl := Except.ok.inj (hr.symm.trans hc)
    exact hcanonical
  cases h with
  | final h => exact hfinal h hc
  | zero => exact hfinal Term.zero_isFinal hc
  | @sum ts hne hts hterms =>
    match ts, hne with
    | [t], _ => exact hfinal (hterms t List.mem_cons_self) hc
    | t :: t' :: rest, _ =>
      exact hfinal (isFinal_sum (by simp) (exists_total_of_isFinal hterms) hts hterms) hc

/-- The terms of the sums in the tree are simplified to steady ones, if they are simplified to terms
at all. -/
def HasSteadySummands (t : Tree) : Prop :=
  ∀ ts, sum ts ∈ t.nodes → ∀ u ∈ ts, ∀ v, (term u).simplify = .ok (.term v) → v.IsSteady

theorem HasSteadySummands.of_nodes {s t : Tree} (h : t.HasSteadySummands) (hs : s.nodes ⊆ t.nodes) :
    s.HasSteadySummands := fun ts hts => h ts (hs hts)

variable {k limit least width n : Nat} {q : Rat}

theorem HasCanonicalForms.of_fixed {b : Tree}
    (h : ∀ n s, b.simplifyWith n = .ok s → s.IsFixed I) : b.HasCanonicalForms I := by
  intro n c hc
  obtain ⟨s, hs, hc⟩ := bind_eq_ok.mp hc
  exact (h n s hs).reduce hc

theorem power_isFixed {f : Factor} {s : Tree} (hcanonical : Canonizes I width limit (canonicalWith k))
    (hfits : (power f).Fits least width) (heffort : (power f).effort ≤ 1 + limit)
    (hq : (power f).meaning? I = some q) (hsteps : Term.enoughSteps width limit ≤ k)
    (hbase : f.base.HasCanonicalForms I)
    (hs : (power f).simplifyBy k (canonicalWith k) = .ok s) : s.IsFixed I := by
  obtain ⟨b, e⟩ := f
  obtain ⟨-, ⟨n, hn, rfl⟩, hbfits⟩ := fits_power.mp hfits
  obtain ⟨x, hx, hxn, rfl⟩ := Factor.meaning?_whole.mp hq
  have hlimit : b.effort ≤ limit := by simpa [effort, Factor.effort] using heffort
  obtain ⟨c, hc, hform⟩ := hcanonical.tree hbfits hlimit hx
  have hcc : c.IsCanonical I := hbase k c hc
  have hnorm := Factor.normalize_ok (n := n) hcanonical.number hc hform.normal
  obtain ⟨r, hr⟩ := hform.normal.plainValue?_ok
  cases r with
  | some v =>
    have hvalue := Factor.value?_of_plain (hform.meaning.trans hx) hr hxn hn
    have hnumber : (power ⟨b, .whole n⟩).simplifyBy k (canonicalWith k) =
        .ok (.number (.exact (x ^ n))) := by simp [simplifyBy, hnorm, hvalue]
    obtain rfl := Except.ok.inj (hnumber.symm.trans hs)
    exact .final (isFinal_number _)
  | none =>
    have hvalue := Factor.value?_of_not_plain (n := n) hr
    obtain ⟨u, hu, hmeaning, hready, -, hbases⟩ :=
      ofFactor_isReady hcanonical.width_ge hfits hlimit hform hx hxn hr
    simp only [simplifyBy, hnorm, hvalue, hu, ok_bind] at hs
    obtain ⟨v, hv, hs⟩ := bind_eq_ok.mp hs
    obtain rfl := Except.ok.inj hs
    refine .final (Term.isFinal_of_simplifyBy hcanonical hready hmeaning hsteps (fun g hg => ?_) hv)
    rcases hbases g hg with hone | hsame | ⟨t, rfl, hopposite⟩
    · rw [hone]
      exact IsCanonical.hasCanonicalForms ⟨isFinal_number 1, rfl⟩
    · rw [hsame]
      exact hcc.hasCanonicalForms
    · exact (hcc.final.opposite hopposite).hasCanonicalForms

theorem term_isFinal {u v : Term} (hcanonical : Canonizes I width limit (canonicalWith k))
    (hfits : (term u).Fits least width) (heffort : u.effort ≤ 1 + limit)
    (hq : u.meaning? I = some q) (hsteps : Term.enoughSteps width limit ≤ k)
    (hbases : ∀ f ∈ u.top ++ u.bottom, f.base.HasCanonicalForms I)
    (hv : u.simplifyBy k (canonicalWith k) = .ok v) : (term v).IsFinal I := by
  have hready : u.IsReady width (u.degree least) limit := ⟨least, hfits, le_rfl, heffort⟩
  exact Term.isFinal_of_simplifyBy hcanonical hready hq hsteps hbases hv

theorem becomesFinal_of_mem {ts : List Term} {u : Term}
    (hcanonical : Canonizes I width limit (canonicalWith k)) (hfits : (sum ts).Fits least width)
    (heffort : (sum ts).effort ≤ 1 + limit) (hsteps : Term.enoughSteps width limit ≤ k)
    (hsteady : (sum ts).HasSteadySummands) (hu : u ∈ ts) (hq : u.meaning? I = some q)
    (hbases : ∀ f ∈ u.top ++ u.bottom, f.base.HasCanonicalForms I) : u.BecomesFinal I k := by
  intro v hv
  have huffort : u.effort ≤ 1 + limit := by
    have hle := Term.effort_le_totalEffort hu
    simp only [Tree.effort] at heffort
    omega
  have hsimplified : (term u).simplifyWith (k + 1) = .ok (.term v) := by
    simp [simplifyWith_succ, simplifyBy, hv]
  exact ⟨term_isFinal hcanonical ((fits_sum.mp hfits).2 u hu) huffort hq hsteps hbases hv,
    hsteady ts (self_mem_nodes _) u hu v (simplify_of_simplifyWith hsimplified)⟩

/-- What a tree is simplified to, simplification leaves as it is. -/
theorem simplifyWith_isFixed {t s : Tree} (hwidth : Value.maxExactExponent + 2 ≤ width)
    (hfits : t.Fits least width) (hq : t.meaning? I = some q) (hsteady : t.HasSteadySummands)
    (hs : t.simplifyWith n = .ok s) : s.IsFixed I := by
  induction hsize : t.size using Nat.strong_induction_on generalizing t s n q with
  | h size ih =>
  -- some number of steps suffices, and they come to the same
  obtain ⟨s', hs', ⟨hmeaning, c, hc, hform⟩, -⟩ := simplifyWith_ok hwidth hfits hq le_rfl
  obtain rfl : s' = s := by
    have h := simplify_of_simplifyWith hs
    rw [simplify_of_simplifyWith hs'] at h
    exact Except.ok.inj h
  obtain ⟨k, limit, hk, hcanonical, heffort, hsteps⟩ :=
    exists_canonizes (I := I) (t := t) hwidth le_rfl
  rw [hk, simplifyWith_succ] at hs'
  have hforms : ∀ {b : Tree} {x : Rat}, b.size < size → b.Fits least width → b.meaning? I = some x →
      b.nodes ⊆ t.nodes → b.HasCanonicalForms I := fun hlt hb hx hnodes =>
    HasCanonicalForms.of_fixed fun _ _ hs => ih _ hlt hb hx (hsteady.of_nodes hnodes) hs rfl
  cases t with
  | number v =>
    obtain rfl := meaning?_number_eq_some.mp hq
    obtain rfl := Except.ok.inj hs'
    exact .final (isFinal_number q)
  | constant c =>
    obtain rfl := Except.ok.inj hs'
    exact .final (isFinal_constant c)
  | «variable» name =>
    obtain rfl := Except.ok.inj hs'
    exact .final (isFinal_variable name)
  | power f =>
    obtain ⟨b, e⟩ := f
    obtain ⟨x, y, hx, -⟩ := Factor.meaning?_eq_some.mp hq
    have hlt : b.size < size := by
      simp only [Tree.size, Factor.size] at hsize
      omega
    exact power_isFixed hcanonical hfits heffort hq hsteps
      (hforms hlt (fits_power.mp hfits).2.2 hx (base_nodes_subset ⟨b, e⟩)) hs'
  | term u =>
    obtain ⟨v, hv, rfl⟩ := map_eq_ok.mp hs'
    refine .final (term_isFinal hcanonical hfits heffort hq hsteps (fun f hf => ?_) hv)
    obtain ⟨x, hx⟩ := Term.exists_base_meaning hq f hf
    exact hforms ((base_size_lt hf).trans_eq hsize) (hfits.base f hf) hx
      (List.Subset.trans (base_nodes_subset f) (nodes_subset_of_factor hf))
  | sum ts =>
    obtain ⟨ss, hss, rfl⟩ := map_eq_ok.mp hs'
    have hterms : ∀ u ∈ ts, u.BecomesFinal I k := by
      intro u hu
      obtain ⟨x, hx⟩ := Term.exists_meaning_of_mem hq hu
      refine becomesFinal_of_mem hcanonical hfits heffort hsteps hsteady hu hx fun f hf => ?_
      obtain ⟨y, hy⟩ := Term.exists_base_meaning hx f hf
      have hmem : ∀ s ∈ (term u).nodes, s ∈ Term.nodesOfAll ts :=
        fun s hs => Term.mem_nodesOfAll.mpr ⟨u, hu, hs⟩
      have hle : u.size ≤ Term.sizes ts :=
        Term.size_le_of_mem_nodesOfAll ts (hmem _ (term u).self_mem_nodes)
      have hlt : f.base.size < size := by
        have hlt := base_size_lt hf
        simp only [Tree.size] at hsize
        omega
      exact hforms hlt (((fits_sum.mp hfits).2 u hu).base f hf) hy fun s hs =>
        List.mem_cons_of_mem _ (hmem s (nodes_subset_of_factor hf (base_nodes_subset f hs)))
    rcases Term.areFinal_of_simplifySumBy hss hterms with rfl | ⟨hne, hfinal, hterms⟩
    · exact .zero
    · exact .sum hne hfinal hterms
  | call f args =>
    obtain ⟨args', hargs', rfl⟩ := map_eq_ok.mp hs'
    obtain rfl := Except.ok.inj hc
    obtain ⟨qs, hqs, -⟩ := Option.bind_eq_some_iff.mp hq
    refine .final (isFinal_call hform.normal ⟨q, hmeaning.trans hq⟩ fun a' ha' => ?_)
    obtain ⟨a, ha, haa'⟩ := mem_mapM hargs' ha'
    obtain ⟨x, hx⟩ := exists_meaning_of_mem hqs ha
    have hle := size_le_of_mem_nodesOfAll args (mem_nodesOfAll.mpr ⟨a, ha, a.self_mem_nodes⟩)
    have hlt : a.size < size := by
      simp only [Tree.size] at hsize
      omega
    exact hforms hlt (fits_call.mp hfits a ha) hx
      (fun s hs => List.mem_cons_of_mem _ (mem_nodesOfAll.mpr ⟨a, ha, hs⟩)) k a' haa'

/-- Simplifying a moderate tree with a meaning and with steady summands comes to an end, and
simplifying the outcome once more changes nothing. -/
theorem simplify_simplify (I : Interpretation) (t : Tree) (q : Rat) (h : t.Moderate)
    (hq : t.meaning? I = some q) (hsteady : t.HasSteadySummands) :
    ∃ s, t.simplify = .ok s ∧ s.simplify = .ok s := by
  obtain ⟨s, hs, -⟩ := simplifyWith_ok (Nat.le_max_right _ _) h.fits hq le_rfl
  have hfixed := simplifyWith_isFixed (Nat.le_max_right _ _) h.fits hq hsteady hs
  exact ⟨s, simplify_of_simplifyWith hs, hfixed.simplify⟩

end Tree

/-- A whole multiple of a variable. -/
def Term.ofVariable (n : Int) (name : String) : Term :=
  ⟨.exact n, .one, [⟨.variable name, .one⟩], side []⟩

theorem Term.meaning?_ofVariable (n : Int) (name : String) :
    (ofVariable n name).meaning? I = some (n * I.ofVariable name) := by
  have hpower : (⟨.variable name, .one⟩ : Factor).meaning? I = some (I.ofVariable name) := by
    rw [← Tree.whole_one]
    exact Factor.meaning?_whole.mpr ⟨_, rfl, .inr Int.one_nonneg, (zpow_one _).symm⟩
  exact meaning?_single hpower

theorem Term.isFinal_ofVariable {n : Int} (hn : n ≠ 0) (name : String) :
    (Tree.term (ofVariable n name)).IsFinal I := by
  have hpower : Factor.Normal ⟨.variable name, .one⟩ :=
    Factor.normal_iff.mpr ⟨trivial, trivial, 1, one_ne_zero, Tree.whole_one.symm⟩
  have hnormal : (ofVariable n name).Normal := normal_iff.mpr
    ⟨⟨n, rfl⟩, ⟨1, rfl⟩, .inr ⟨by simp [ofVariable], List.forall_mem_singleton.mpr hpower⟩, .inl rfl⟩
  refine Tree.isFinal_term hnormal ⟨_, meaning?_ofVariable n name⟩ ⟨?_, ?_, fun hzero => ?_⟩ ?_
  · exact ⟨n, 1, rfl, rfl, Int.one_pos, Int.gcd_one_right n⟩
  · simp [bases, ofVariable, side, Factor.stays_placeholder, hpower.stays]
  · simp [ofVariable, hn] at hzero
  · simp only [ofVariable, side, List.cons_append, List.nil_append, List.forall_mem_cons]
    exact ⟨Tree.isFinal_variable name, Tree.isFinal_number 1, by simp⟩

theorem Term.isSteady_ofVariable (n : Int) (name : String) : (ofVariable n name).IsSteady := by
  refine ⟨fun f hf => ?_, ?_⟩
  · obtain rfl := List.mem_singleton.mp hf
    simp [Factor.placeholder, ← Tree.whole_one]
  · rintro ⟨ts, htop, -⟩
    simp [ofVariable] at htop

/-- `(2x + 3x)²`, which is `25x²`. -/
theorem Tree.simplify_simplify_square :
    let I : Interpretation := ⟨fun _ => 3, fun _ => 0, fun _ _ => none⟩
    let t : Tree := .power ⟨.sum [Term.ofVariable 2 "x", Term.ofVariable 3 "x"], .whole 2⟩
    t.Moderate ∧ t.meaning? I = some 225 ∧ t.HasSteadySummands ∧
      ∃ s, t.simplify = .ok s ∧ s.simplify = .ok s := by
  intro I t
  have hterms : ∀ n : Int, (term (Term.ofVariable n "x")).nodes =
      [term (Term.ofVariable n "x"), .power ⟨.variable "x", .one⟩, .variable "x", .one,
        .power .placeholder, .one, .one] := fun n => rfl
  have hnodes : t.nodes = t :: .sum [Term.ofVariable 2 "x", Term.ofVariable 3 "x"] ::
      ((term (Term.ofVariable 2 "x")).nodes ++ (term (Term.ofVariable 3 "x")).nodes ++ [.whole 2]) :=
    rfl
  have hpart : ∀ n : Int, (term (Term.ofVariable n "x")).Moderate := fun n => moderate_term
    (List.forall_mem_singleton.mpr (moderate_variable "x").first)
    (List.forall_mem_singleton.mpr moderate_placeholder) (by decide : 1 ≤ Value.maxExactExponent)
  have hmoderate : t.Moderate := Moderate.power
    (moderate_sum (List.forall_mem_cons.mpr ⟨hpart 2, List.forall_mem_singleton.mpr (hpart 3)⟩))
    (by decide) (by decide)
  have hmeaning : t.meaning? I = some 225 := by
    refine Factor.meaning?_whole.mpr ⟨15, ?_, .inl (by norm_num), by norm_num⟩
    refine Term.total?_cons_eq_some.mpr ⟨_, _, Term.meaning?_ofVariable 2 "x",
      Term.total?_cons_of (Term.meaning?_ofVariable 3 "x") rfl, ?_⟩
    norm_num [I]
  have hsteady : t.HasSteadySummands := by
    intro ts hts u hu v hv
    obtain rfl : ts = [Term.ofVariable 2 "x", Term.ofVariable 3 "x"] := by
      rw [hnodes, hterms, hterms] at hts
      simpa [t, whole, one] using hts
    have hself : ∀ n : Int, n ≠ 0 → u = Term.ofVariable n "x" → v.IsSteady := by
      rintro n hn rfl
      have hfixed : (term (Term.ofVariable n "x")).IsFixed I := .final (Term.isFinal_ofVariable hn "x")
      obtain rfl : Term.ofVariable n "x" = v := by simpa using hfixed.simplify.symm.trans hv
      exact Term.isSteady_ofVariable n "x"
    rcases List.mem_pair.mp hu with hu | hu
    · exact hself 2 (by decide) hu
    · exact hself 3 (by decide) hu
  exact ⟨hmoderate, hmeaning, hsteady, simplify_simplify I t 225 hmoderate hmeaning hsteady⟩

end SymbolicAlgebra
