import SymbolicAlgebra.Proofs.QueueStep
import SymbolicAlgebra.Proofs.Settled

/-!
# Simplification settles

What simplification gives has settled sides and is nested no deeper than what it was given. A factor
that replaces another while a term is worked through has a base of lower height, so the queue of
factors can only grow as long as there is height left. The lemmas go through the functions in the
order of their definition, for a function that brings trees to canonical form and settles them.
-/

namespace SymbolicAlgebra

open Outcome

/-- What comes out is settled and nested no deeper than what went in. -/
def Settles (canonical : Tree → Except Fault Tree) : Prop :=
  ∀ {t c : Tree}, canonical t = .ok c → c.IsSettled ∧ c.Under t

/-- The factor is nested no deeper than the bounds say. -/
structure Factor.Bounded (level height : Nat) (f : Factor) : Prop where
  level : f.level ≤ level
  height : f.height ≤ height

/-- The factor is settled and nested no deeper than the bounds say. -/
structure Factor.SettledWithin (level height : Nat) (f : Factor) : Prop
    extends f.IsSettled, f.Bounded level height

structure Term.Bounded (level height : Nat) (t : Term) : Prop where
  level : t.level ≤ level
  height : t.height ≤ height

structure Term.SettledWithin (level height : Nat) (t : Term) : Prop
    extends t.HasSettledSides, t.Bounded level height

def Product.SettledWithin (level height : Nat) (p : Product) : Prop :=
  ∀ f ∈ p.top ++ p.bottom, f.SettledWithin level height

variable {canonical : Tree → Except Fault Tree} {l h : Nat}

namespace Factor

/-- The exponent of a factor is nested less deeply than the factor. -/
theorem Bounded.exponent_lt {f : Factor} (hf : f.Bounded l h) : f.exponent.level < l := by
  obtain ⟨base, exponent⟩ := f
  have hlevel := hf.level
  simp only [Factor.level] at hlevel ⊢
  omega

theorem Bounded.withExponent {f : Factor} (hf : f.Bounded l h) {e : Tree} (he : e.level < l) :
    Bounded l h ⟨f.base, e⟩ := by
  obtain ⟨base, exponent⟩ := f
  obtain ⟨hlevel, hheight⟩ := hf
  simp only [Factor.level] at hlevel
  exact ⟨by simp only [Factor.level]; omega, hheight⟩

theorem Bounded.base {f : Factor} (hf : f.Bounded l h) : f.base.level ≤ l ∧ f.base.height < h := by
  obtain ⟨base, exponent⟩ := f
  obtain ⟨hlevel, hheight⟩ := hf
  simp only [Factor.level, Factor.height] at hlevel hheight ⊢
  omega

theorem SettledWithin.withExponent {f : Factor} (hf : f.SettledWithin l h) {e : Tree}
    (he : e.IsSettled) (hlt : e.level < l) : SettledWithin l h ⟨f.base, e⟩ :=
  ⟨⟨hf.base, he⟩, hf.toBounded.withExponent hlt⟩

end Factor

section
variable (hcanonical : Settles canonical)
include hcanonical

theorem Factor.normalize_eq {f g : Factor} (hg : f.normalize canonical = .ok g) :
    canonical f.base = .ok g.base ∧ canonical f.exponent = .ok g.exponent := by
  obtain ⟨base, hbase, hg⟩ := bind_eq_ok.mp hg
  obtain ⟨exponent, hexponent, hg⟩ := bind_eq_ok.mp hg
  have hpower := (hcanonical hbase).1.ne_power
  have hjoin : join canonical base exponent = .ok ⟨base, exponent⟩ := by
    cases base with
    | power f => exact (hpower f rfl).elim
    | _ => rfl
  obtain rfl := Except.ok.inj (hjoin.symm.trans hg)
  exact ⟨hbase, hexponent⟩

theorem Factor.normalize_settles {f g : Factor} (hg : f.normalize canonical = .ok g) :
    g.IsSettled ∧ g.Under f := by
  obtain ⟨hbase, hexponent⟩ := normalize_eq hcanonical hg
  obtain ⟨b, e⟩ := f
  obtain ⟨b', e'⟩ := g
  obtain ⟨hb, hbunder⟩ := hcanonical hbase
  obtain ⟨he, heunder⟩ := hcanonical hexponent
  exact ⟨⟨hb, he⟩, under_of hbunder heunder.level⟩

theorem Tree.canonicalSum_settles {s t c : Tree} (h : s.canonicalSum canonical t = .ok c)
    (hs : s.level < l) (ht : t.level < l) : c.IsSettled ∧ c.level < l := by
  obtain ⟨sum, hsum, hc⟩ := bind_eq_ok.mp h
  obtain ⟨hsettled, hunder⟩ := hcanonical hc
  have hlevel := add_level hsum (Nat.le_sub_one_of_lt hs) (Nat.le_sub_one_of_lt ht)
  exact ⟨hsettled, by have := hunder.level; omega⟩

namespace Product

theorem merge_settles {fs gs : List Factor} {f : Factor} (hgs : merge canonical fs f = .ok gs)
    (hfs : ∀ g ∈ fs, g.SettledWithin l h) (hf : f.SettledWithin l h) :
    ∀ g ∈ gs, g.SettledWithin l h := by
  unfold merge at hgs
  split at hgs
  · next e he =>
    obtain ⟨g, hg, rfl⟩ := Factor.exponentOf?_eq_some he
    obtain ⟨sum, hsum, hgs⟩ := bind_eq_ok.mp hgs
    obtain rfl := Except.ok.inj hgs
    obtain ⟨hsettled, hlevel⟩ :=
      Tree.canonicalSum_settles hcanonical hsum (hfs g hg).exponent_lt hf.exponent_lt
    intro g' hg'
    rcases Factor.mem_setExponent hg' with hmem | rfl | ⟨k, hk, rfl⟩
    · exact hfs g' hmem
    · exact hf.withExponent hsettled hlevel
    · exact (hfs k hk).withExponent hsettled hlevel
  · obtain rfl := Except.ok.inj hgs
    exact List.forall_mem_append.mpr ⟨hfs, by simpa using hf⟩

theorem gather_settles {p p' : Product} {f : Factor} {onTop : Bool}
    (hp' : p.gather canonical f onTop = .ok p') (hp : p.SettledWithin l h)
    (hf : f.SettledWithin l h) : p'.SettledWithin l h := by
  obtain ⟨htop, hbottom⟩ := List.forall_mem_append.mp hp
  unfold gather at hp'
  split at hp'
  · obtain ⟨fs, hfs, hp'⟩ := bind_eq_ok.mp hp'
    obtain rfl := Except.ok.inj hp'
    exact List.forall_mem_append.mpr ⟨merge_settles hcanonical hfs htop hf, hbottom⟩
  · obtain ⟨fs, hfs, hp'⟩ := bind_eq_ok.mp hp'
    obtain rfl := Except.ok.inj hp'
    exact List.forall_mem_append.mpr ⟨htop, merge_settles hcanonical hfs hbottom hf⟩

omit hcanonical in
theorem SettledWithin.congr {p p' : Product} (hp : p.SettledWithin l h)
    (hsides : p'.top = p.top ∧ p'.bottom = p.bottom) : p'.SettledWithin l h := by
  rwa [SettledWithin, hsides.1, hsides.2]

omit hcanonical in
theorem raised_within {t : Term} {e : Tree} {fs gs : List Factor} {power : Int}
    (hfs : ∀ f ∈ fs, f ∈ t.top ++ t.bottom) (hgs : raised fs power = .ok gs)
    (ht : Factor.Bounded l h ⟨.term t, e⟩) :
    ∀ g ∈ gs, g.level ≤ l ∧ g.height < Factor.height ⟨.term t, e⟩ := by
  rintro ⟨b, e''⟩ hg
  obtain ⟨⟨b', e'⟩, hf, rfl, he''⟩ := mem_raised hgs hg
  have hlevel := (Term.level_le.mp ht.base.1).2 _ (hfs _ hf)
  have hheight := (Term.height_le.mp (le_refl t.height)).2 _ (hfs _ hf)
  simp only [Factor.level, Factor.height, Tree.height] at hlevel hheight ⊢
  have hexponent : e''.level ≤ l - 1 :=
    Tree.multiply_level he'' (by simp only; omega) (Nat.zero_le _)
  omega

/-- A step keeps the gathered factors settled and within their bounds, and a factor that it puts in
the place of another is of lower height. -/
theorem step_settles {p p' : Product} {item : Item} {more : List Item}
    (hstep : p.step canonical item = .ok (p', more)) (hp : p.SettledWithin l h)
    (hitem : item.factor.Bounded l h) :
    p'.SettledWithin l h ∧
      ∀ i ∈ more, i.factor.level ≤ l ∧ i.factor.height < item.factor.height := by
  obtain ⟨f, hf, hcases⟩ := step_cases hstep
  obtain ⟨hsettled, hunder⟩ := Factor.normalize_settles hcanonical hf
  have hwithin : f.Bounded l h := ⟨hunder.level.trans hitem.level, hunder.height.trans hitem.height⟩
  rcases hcases with ⟨hsides, rfl⟩ | ⟨hgather, rfl⟩ |
    ⟨hsides, t, power, top, bottom, hbase, htop, hbottom, rfl⟩
  · exact ⟨hp.congr hsides, by simp⟩
  · exact ⟨gather_settles hcanonical hgather hp ⟨hsettled, hwithin⟩, by simp⟩
  · obtain ⟨base, exponent⟩ := f
    obtain rfl : base = .term t := hbase
    have hraised : ∀ g ∈ top ++ bottom, g.level ≤ l ∧ g.height < item.factor.height := by
      intro g hg
      obtain ⟨hlevel, hheight⟩ := (List.mem_append.mp hg).elim
        (raised_within (fun _ => List.mem_append_left _) htop hwithin g)
        (raised_within (fun _ => List.mem_append_right _) hbottom hwithin g)
      exact ⟨hlevel, hheight.trans_le hunder.height⟩
    exact ⟨hp.congr hsides, forall_mem_items hraised⟩

theorem run_settles {steps : Nat} {p p' : Product} {items : List Item}
    (hrun : run canonical steps p items = .ok p') (hp : p.SettledWithin l h)
    (hitems : ∀ i ∈ items, i.factor.Bounded l h) : p'.SettledWithin l h := by
  refine run_keeps (R := Factor.Bounded l h) (fun hstep hp hitem => ?_) hrun hp hitems
  obtain ⟨hp', hmore⟩ := step_settles hcanonical hstep hp hitem
  refine ⟨hp', fun i hi => ?_⟩
  obtain ⟨hlevel, hheight⟩ := hmore i hi
  exact ⟨hlevel, hheight.le.trans hitem.height⟩

theorem cancelBase_settles {p p' : Product} {f : Factor}
    (hp' : p.cancelBase canonical f.base = .ok p') (hp : p.SettledWithin l h)
    (hf : f.SettledWithin l h) : p'.SettledWithin l h := by
  obtain ⟨htop, hbottom⟩ := List.forall_mem_append.mp hp
  have herase : ∀ {fs : List Factor}, (∀ g ∈ fs, g.SettledWithin l h) →
      ∀ g ∈ Factor.eraseBase f.base fs, g.SettledWithin l h :=
    fun hfs g hg => hfs g (List.mem_of_mem_eraseP hg)
  unfold cancelBase at hp'
  split at hp'
  · next m n hm hn =>
    obtain ⟨g, hg, rfl⟩ := Factor.exponentOf?_eq_some hm
    obtain ⟨g', hg', rfl⟩ := Factor.exponentOf?_eq_some hn
    obtain ⟨opposite, hopposite, hp'⟩ := bind_eq_ok.mp hp'
    obtain ⟨exponent, hexponent, hp'⟩ := bind_eq_ok.mp hp'
    have hnegated : ∀ {e o : Tree}, e.negate = .ok o → e.level < l → o.level < l := by
      intro e o ho he
      have hlevel := Tree.negate_level ho (Nat.le_sub_one_of_lt he)
      omega
    obtain ⟨hsettled, hlevel⟩ := Tree.canonicalSum_settles hcanonical hexponent
      (htop g hg).exponent_lt (hnegated hopposite (hbottom g' hg').exponent_lt)
    obtain ⟨value?, -, hp'⟩ := bind_eq_ok.mp hp'
    split at hp'
    · obtain ⟨negated, hnegate, hp'⟩ := bind_eq_ok.mp hp'
      obtain ⟨e, he, hp'⟩ := bind_eq_ok.mp hp'
      obtain rfl := Except.ok.inj hp'
      obtain ⟨hsettled', hunder⟩ := hcanonical he
      have hlevel' := hunder.level.trans_lt (hnegated hnegate hlevel)
      exact List.forall_mem_append.mpr ⟨herase htop, List.forall_mem_append.mpr
        ⟨herase hbottom, by simpa using hf.withExponent hsettled' hlevel'⟩⟩
    · obtain ⟨zero, -, hp'⟩ := bind_eq_ok.mp hp'
      cases zero with
      | true =>
        obtain rfl := Except.ok.inj hp'
        exact List.forall_mem_append.mpr ⟨herase htop, herase hbottom⟩
      | false =>
        obtain rfl := Except.ok.inj hp'
        exact List.forall_mem_append.mpr ⟨List.forall_mem_append.mpr
          ⟨herase htop, by simpa using hf.withExponent hsettled hlevel⟩, herase hbottom⟩
  · obtain rfl := Except.ok.inj hp'
    exact hp

theorem cancel_settles {p p' : Product} (hp' : p.cancel canonical = .ok p')
    (hp : p.SettledWithin l h) : p'.SettledWithin l h :=
  foldlM_keeps hp' hp fun _ f hf _ hp₁ hp₂ => cancelBase_settles hcanonical hp₂ hp₁
    (hp f (List.mem_append_left _ (List.mem_filter.mp hf).1))

omit hcanonical in
theorem toTerm_settles {p : Product} {t : Term} (ht : p.toTerm = .ok t) (hp : p.SettledWithin l h)
    (hl : 1 ≤ l) (hh : 1 ≤ h) : t.SettledWithin l h := by
  unfold toTerm at ht
  split at ht
  · obtain rfl := Except.ok.inj ht
    exact ⟨Term.zero_settled, ⟨hl, hh⟩⟩
  · obtain ⟨⟨m, d⟩, -, ht⟩ := bind_eq_ok.mp ht
    exact ⟨Term.of_settled ht fun f hf => (hp f hf).toIsSettled,
      Term.of_level_le ht hl fun f hf => (hp f hf).level,
      Term.height_le_of_under (Term.of_under ht) hh fun f hf => (hp f hf).height⟩

end Product

omit hcanonical in
/-- The factors of a term are the first items of its queue. -/
theorem Term.Bounded.items {t : Term} (ht : t.Bounded l h) :
    ∀ i ∈ Product.items t.top t.bottom true, i.factor.Bounded l h := by
  have hlevel := (level_le.mp ht.level).2
  have hheight := (height_le.mp ht.height).2
  exact Product.forall_mem_items (R := Factor.Bounded l h) fun f hf => ⟨hlevel f hf, hheight f hf⟩

/-- Simplifying a term gives it settled sides and nests it no deeper. -/
theorem Term.simplifyBy_settles {steps : Nat} {t u : Term}
    (hu : t.simplifyBy steps canonical = .ok u) (ht : t.Bounded l h) : u.SettledWithin l h := by
  have hl : 1 ≤ l := t.level_pos.trans ht.level
  have hh : 1 ≤ h := t.height_pos.trans ht.height
  unfold simplifyBy at hu
  split at hu
  · obtain rfl := Except.ok.inj hu
    exact ⟨zero_settled, ⟨hl, hh⟩⟩
  · obtain ⟨p, hp, hu⟩ := bind_eq_ok.mp hu
    obtain ⟨p', hp', hu⟩ := bind_eq_ok.mp hu
    refine Product.toTerm_settles hu (Product.cancel_settles hcanonical hp' ?_) hl hh
    exact Product.run_settles hcanonical hp (by simp [Product.SettledWithin]) ht.items

namespace Term

omit hcanonical in
theorem add_of_isLike_within {s t : Term} {c : Tree} (hs : s.SettledWithin l h)
    (ht : t.SettledWithin l h) (hlike : s.isLike t = true) (hc : s.add t = .ok c) :
    ∃ u, c = .term u ∧ u.Bounded l h := by
  obtain ⟨u, rfl, hlevel, hheight⟩ :=
    add_of_isLike hs.toHasSettledSides ht.toHasSettledSides hlike hc
  exact ⟨u, rfl, hlevel.trans (max_le hs.level ht.level), hheight.trans (max_le hs.height ht.height)⟩

theorem combine_settles {steps : Nat} {combined combined' : List Term} {t : Term}
    (hcombined' : combine steps canonical combined t = .ok combined')
    (hcombined : ∀ s ∈ combined, s.SettledWithin l h) (ht : t.SettledWithin l h) :
    ∀ s ∈ combined', s.SettledWithin l h := by
  induction combined generalizing combined' with
  | nil =>
    obtain rfl := Except.ok.inj hcombined'
    simpa using ht
  | cons other rest ih =>
    obtain ⟨hother, hrest⟩ := List.forall_mem_cons.mp hcombined
    rcases combine_cons_cases hcombined' with ⟨hlike, sum, u, total, hsum, hu, htotal, hcases⟩ |
      ⟨-, rest', hrest', rfl⟩
    · obtain ⟨u', rfl, hu'⟩ := add_of_isLike_within hother ht hlike hsum
      obtain rfl := Except.ok.inj hu
      rcases hcases with ⟨-, rfl⟩ | ⟨-, rfl⟩
      · exact hrest
      · exact List.forall_mem_cons.mpr ⟨simplifyBy_settles hcanonical htotal hu', hrest⟩
    · exact List.forall_mem_cons.mpr ⟨hother, ih hrest' hrest⟩

omit hcanonical in
theorem reduce_sum_within {t : Term} {ts : List Term} (hts : t.reduce = .ok (.sum ts)) :
    ∀ s ∈ ts, s.level ≤ t.level ∧ s.height < t.height := by
  intro s hs
  have hunder := t.reduce_under hts
  obtain ⟨hlevel, hheight⟩ := Term.under_sum hs
  exact ⟨hlevel.level.trans hunder.level, hheight.trans_le hunder.height⟩

/-- A step keeps the combined terms settled and within their bounds, and the terms that it puts into
the queue are of lower height than the one that it takes out. -/
theorem combineStep_settles {steps : Nat} {combined combined' more : List Term} {t : Term}
    (hstep : combineStep steps canonical combined t = .ok (combined', more))
    (hcombined : ∀ s ∈ combined, s.SettledWithin l h) (ht : t.Bounded l h) :
    (∀ s ∈ combined', s.SettledWithin l h) ∧ ∀ s ∈ more, s.level ≤ l ∧ s.height < t.height := by
  obtain ⟨u, c, hu, hc, hcases⟩ := combineStep_cases hstep
  have hunder := simplifyBy_settles hcanonical hu ⟨le_rfl, le_rfl⟩
  have hu := simplifyBy_settles hcanonical hu ht
  rcases hcases with ⟨rfl, rfl⟩ | ⟨-, rfl, ⟨-, rfl⟩ | ⟨-, hcombine⟩⟩
  · refine ⟨hcombined, fun s hs => ?_⟩
    obtain ⟨hlevel, hheight⟩ := reduce_sum_within hc s hs
    exact ⟨hlevel.trans hu.level, hheight.trans_le hunder.height⟩
  · exact ⟨hcombined, by simp⟩
  · exact ⟨combine_settles hcanonical hcombine hcombined hu, by simp⟩

theorem combineAll_settles {steps k : Nat} {combined pending combined' : List Term}
    (hcombined' : combineAll steps canonical k combined pending = .ok combined')
    (hcombined : ∀ s ∈ combined, s.SettledWithin l h) (hpending : ∀ s ∈ pending, s.Bounded l h) :
    ∀ s ∈ combined', s.SettledWithin l h := by
  refine combineAll_keeps (P := fun combined => ∀ s ∈ combined, s.SettledWithin l h)
    (fun hstep hcombined ht => ?_) hcombined' hcombined hpending
  obtain ⟨hcombined', hmore⟩ := combineStep_settles hcanonical hstep hcombined ht
  refine ⟨hcombined', fun s hs => ?_⟩
  obtain ⟨hlevel, hheight⟩ := hmore s hs
  exact ⟨hlevel, hheight.le.trans ht.height⟩

omit hcanonical in
theorem zero_settledWithin (hl : 1 ≤ l) (hh : 1 ≤ h) : zero.SettledWithin l h :=
  ⟨zero_settled, ⟨hl, hh⟩⟩

theorem simplifySumBy_settles {steps : Nat} {ts us : List Term}
    (hus : simplifySumBy steps canonical ts = .ok us) (hl : 1 ≤ l) (hh : 1 ≤ h)
    (hts : ∀ t ∈ ts, t.Bounded l h) : ∀ u ∈ us, u.SettledWithin l h := by
  obtain ⟨combined, hcombined, hus⟩ := bind_eq_ok.mp hus
  obtain ⟨nonzero, hnonzero, hus⟩ := bind_eq_ok.mp hus
  have hcombined := combineAll_settles hcanonical hcombined (by simp) hts
  intro u hu
  have hmem := (sorted_perm hus).subset hu
  split at hmem
  · obtain rfl := List.mem_singleton.mp hmem
    exact zero_settledWithin hl hh
  · exact hcombined u (mem_of_mem_filterM hnonzero hmem)

end Term

theorem Tree.simplifyBy_settles {steps : Nat} {t s c : Tree}
    (hs : t.simplifyBy steps canonical = .ok s) (hc : s.reduce = .ok c) :
    c.IsSettled ∧ c.Under t := by
  have hterm : ∀ {u v : Term} {t : Tree}, u.simplifyBy steps canonical = .ok v →
      (Tree.term v).reduce = .ok c → (Tree.term u).Under t → c.IsSettled ∧ c.Under t := by
    intro u v t hv hc hu
    obtain ⟨hsides, hlevel, hheight⟩ := Term.simplifyBy_settles hcanonical hv ⟨le_rfl, le_rfl⟩
    have hunder : (Tree.term v).Under (.term u) := ⟨hlevel, hheight⟩
    exact ⟨hsides.reduce hc, (v.reduce_under hc).trans (hunder.trans hu)⟩
  cases t with
  | term u =>
    obtain ⟨v, hv, rfl⟩ := map_eq_ok.mp hs
    exact hterm hv hc (.refl _)
  | power f =>
    obtain ⟨g, hg, hs⟩ := bind_eq_ok.mp hs
    obtain ⟨-, hunder⟩ := Factor.normalize_settles hcanonical hg
    obtain ⟨value?, -, hs⟩ := bind_eq_ok.mp hs
    cases value? with
    | some v =>
      obtain rfl := Except.ok.inj hs
      obtain rfl := Except.ok.inj hc
      exact ⟨.number v, under_number v _⟩
    | none =>
      obtain ⟨u, hu, hs⟩ := bind_eq_ok.mp hs
      obtain ⟨v, hv, hs⟩ := bind_eq_ok.mp hs
      obtain rfl := Except.ok.inj hs
      exact hterm hv hc ((Term.ofFactor_under hu).trans ⟨hunder.level, hunder.height⟩)
  | sum ts =>
    obtain ⟨us, hus, rfl⟩ := map_eq_ok.mp hs
    obtain ⟨hl, hlevel⟩ := Term.highestLevel_le.mp (le_refl (Term.highestLevel ts))
    obtain ⟨hh, hheight⟩ := Term.highestHeight_le.mp (le_refl (Term.highestHeight ts))
    have hus := Term.simplifySumBy_settles hcanonical hus hl hh
      fun t ht => ⟨hlevel t ht, hheight t ht⟩
    have hunder : (Tree.sum us).Under (.sum ts) :=
      ⟨Term.highestLevel_le.mpr ⟨hl, fun u hu => (hus u hu).level⟩,
        Nat.add_le_add_left (Term.highestHeight_le.mpr ⟨hh, fun u hu => (hus u hu).height⟩) 1⟩
    refine ⟨?_, (reduce_under _ hc).trans hunder⟩
    match us, hus, hc with
    | [u], hus, hc => exact (hus u List.mem_cons_self).reduce hc
    | [], hus, hc | _ :: _ :: _, hus, hc =>
      obtain rfl := Except.ok.inj hc
      exact .sum rfl
  | call f args =>
    obtain ⟨cs, hcs, rfl⟩ := map_eq_ok.mp hs
    obtain rfl := Except.ok.inj hc
    have hcs : ∀ c ∈ cs, ∃ t ∈ args, c.Under t := by
      intro c hc
      obtain ⟨t, ht, htc⟩ := mem_mapM hcs hc
      exact ⟨t, ht, (hcanonical htc).2⟩
    obtain ⟨hl, hlevel⟩ := highestLevel_le.mp (le_refl (highestLevel args))
    have hheight := highestHeight_le.mp (le_refl (highestHeight args))
    refine ⟨.call f cs, highestLevel_le.mpr ⟨hl, fun c hc => ?_⟩,
      Nat.add_le_add_left (highestHeight_le.mpr fun c hc => ?_) 1⟩
    · obtain ⟨t, ht, hct⟩ := hcs c hc
      exact hct.level.trans (hlevel t ht)
    · obtain ⟨t, ht, hct⟩ := hcs c hc
      exact hct.height.trans (hheight t ht)
  | _ =>
    obtain rfl := Except.ok.inj hs
    obtain rfl := Except.ok.inj hc
    exact ⟨by constructor, .refl _⟩

end

/-- Canonical forms are settled and nested no deeper than the trees they are of. -/
theorem Tree.canonicalWith_settles (n : Nat) : Settles (Tree.canonicalWith n) := by
  induction n with
  | zero =>
    intro t c h
    cases h
  | succ n ih =>
    intro t c h
    obtain ⟨s, hs, hc⟩ := bind_eq_ok.mp h
    exact simplifyBy_settles ih hs hc

end SymbolicAlgebra
