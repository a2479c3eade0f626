import SymbolicAlgebra.Proofs.Building
import SymbolicAlgebra.Proofs.FinalForm

/-!
# What simplification leaves is final

A term whose bases have canonical forms is simplified to a final form. Two like terms in final form
add up to a term with the same factors: the denominator that comes in is merged with the one that is
there and cancelled against the numerator, base by base. So the terms that are combined in a sum stay
unlike each other.
-/

namespace SymbolicAlgebra

open Outcome

variable {I : Interpretation}

/-- Whatever comes of bringing the tree to canonical form is canonical. -/
def Tree.HasCanonicalForms (I : Interpretation) (t : Tree) : Prop :=
  ∀ (n : Nat) (c : Tree), t.canonicalWith n = .ok c → c.IsCanonical I

theorem Tree.IsCanonical.hasCanonicalForms {c : Tree} (h : c.IsCanonical I) :
    c.HasCanonicalForms I := by
  intro n s hs
  rwa [h.eq_of_canonicalWith hs]

theorem Value.ne_zero_of_ratio {n l : Int} {m d : Rat} (h : (n / l : Rat) = m / d) (hm : m ≠ 0)
    (hd : d ≠ 0) : n ≠ 0 := by
  rintro rfl
  rw [Int.cast_zero, zero_div] at h
  exact div_ne_zero hm hd h.symm

namespace Product

/-- The bases of the gathered factors are canonical. -/
def HasCanonicalBases (I : Interpretation) (p : Product) : Prop :=
  ∀ f ∈ p.top ++ p.bottom, f.base.IsCanonical I

variable {n : Nat}

theorem HasCanonicalBases.congr {p p' : Product} (hp : p.HasCanonicalBases I)
    (hsides : p'.top = p.top ∧ p'.bottom = p.bottom) : p'.HasCanonicalBases I := by
  rwa [HasCanonicalBases, hsides.1, hsides.2]

theorem normalize_isCanonical {f g : Factor} (hg : f.normalize (Tree.canonicalWith n) = .ok g)
    (hf : f.base.HasCanonicalForms I) : g.base.IsCanonical I := by
  obtain ⟨base, hbase, hg⟩ := bind_eq_ok.mp hg
  obtain ⟨exponent, -, hg⟩ := bind_eq_ok.mp hg
  have hcanonical := hf n base hbase
  cases base with
  | power f => exact hcanonical.final.normal.elim
  | _ =>
    obtain rfl := Except.ok.inj hg
    exact hcanonical

theorem merge_isCanonical {canonical : Tree → Except Fault Tree} {fs gs : List Factor} {f : Factor}
    (h : merge canonical fs f = .ok gs) (hfs : ∀ g ∈ fs, g.base.IsCanonical I)
    (hf : f.base.IsCanonical I) : ∀ g ∈ gs, g.base.IsCanonical I := by
  unfold merge at h
  split at h
  · obtain ⟨sum, -, h⟩ := bind_eq_ok.mp h
    obtain rfl := Except.ok.inj h
    intro g hg
    rcases Factor.mem_setExponent hg with hg | rfl | ⟨k, hk, rfl⟩
    · exact hfs g hg
    · exact hf
    · exact hfs k hk
  · obtain rfl := Except.ok.inj h
    exact List.forall_mem_append.mpr ⟨hfs, List.forall_mem_singleton.mpr hf⟩

theorem gather_isCanonical {canonical : Tree → Except Fault Tree} {p p' : Product} {f : Factor}
    {onTop : Bool} (h : p.gather canonical f onTop = .ok p') (hp : p.HasCanonicalBases I)
    (hf : f.base.IsCanonical I) : p'.HasCanonicalBases I := by
  obtain ⟨htop, hbottom⟩ := List.forall_mem_append.mp hp
  unfold gather at h
  split at h
  · obtain ⟨fs, hfs, h⟩ := bind_eq_ok.mp h
    obtain rfl := Except.ok.inj h
    exact List.forall_mem_append.mpr ⟨merge_isCanonical hfs htop hf, hbottom⟩
  · obtain ⟨fs, hfs, h⟩ := bind_eq_ok.mp h
    obtain rfl := Except.ok.inj h
    exact List.forall_mem_append.mpr ⟨htop, merge_isCanonical hfs hbottom hf⟩

theorem step_isCanonical {p p' : Product} {item : Item} {more : List Item}
    (h : p.step (Tree.canonicalWith n) item = .ok (p', more)) (hp : p.HasCanonicalBases I)
    (hitem : item.factor.base.HasCanonicalForms I) :
    p'.HasCanonicalBases I ∧ ∀ i ∈ more, i.factor.base.HasCanonicalForms I := by
  obtain ⟨f, hf, hcases⟩ := step_cases h
  have hf := normalize_isCanonical hf hitem
  rcases hcases with ⟨hsides, rfl⟩ | ⟨hgather, rfl⟩ |
    ⟨hsides, t, power, top, bottom, hbase, htop, hbottom, rfl⟩
  · exact ⟨hp.congr hsides, by simp⟩
  · exact ⟨gather_isCanonical hgather hp hf, by simp⟩
  · rw [hbase] at hf
    have hraised : ∀ {fs gs : List Factor}, raised fs power = .ok gs →
        (∀ f ∈ fs, f ∈ t.top ++ t.bottom) → ∀ g ∈ gs, g.base.HasCanonicalForms I := by
      intro fs gs hgs hmem g hg
      obtain ⟨f, hf', hbase, -⟩ := mem_raised hgs hg
      rw [hbase]
      exact (hf.final.base f (hmem f hf')).hasCanonicalForms
    exact ⟨hp.congr hsides, forall_mem_items (R := fun f => f.base.HasCanonicalForms I) <|
      List.forall_mem_append.mpr ⟨hraised htop fun f => List.mem_append_left _,
        hraised hbottom fun f => List.mem_append_right _⟩⟩

theorem run_isCanonical {steps : Nat} {p p' : Product} {items : List Item}
    (h : run (Tree.canonicalWith n) steps p items = .ok p') (hp : p.HasCanonicalBases I)
    (hitems : ∀ i ∈ items, i.factor.base.HasCanonicalForms I) : p'.HasCanonicalBases I :=
  run_keeps (P := HasCanonicalBases I) (R := fun f => f.base.HasCanonicalForms I) step_isCanonical h
    hp hitems

theorem CancelsTo.hasCanonicalBases {p p' : Product} (h : CancelsTo I p p')
    (hp : p.HasCanonicalBases I) : p'.HasCanonicalBases I := by
  obtain ⟨htop, hbottom⟩ := List.forall_mem_append.mp hp
  refine List.forall_mem_append.mpr ⟨fun f hf => ?_, fun f hf => ?_⟩
  · obtain ⟨g, hg, hbase⟩ := List.mem_map.mp (h.top f.base (List.mem_map_of_mem hf))
    exact hbase ▸ htop g hg
  · obtain ⟨g, hg, hbase⟩ := List.mem_map.mp (h.bottom f.base (List.mem_map_of_mem hf))
    exact hbase ▸ hbottom g hg

theorem toTerm_cases {p : Product} {t : Term} {q : Rat} {effort : Nat} (hp : p.Gathered effort)
    (hq : p.asTerm.meaning? I = some q) (ht : p.toTerm = .ok t) :
    t = .zero ∨ t.multiplier.isZero = false ∧ t.top = Factor.kept p.top ∧
      t.bottom = Factor.kept p.bottom := by
  obtain ⟨m, d, -, -, hm, hd, -, -, hd0, -, -⟩ := asTerm_meaning?_eq_some.mp hq
  by_cases hm0 : m = 0
  · subst hm0
    have hzero : p.toTerm = .ok .zero := by simp [toTerm, hm]
    exact .inl (Except.ok.inj (ht.symm.trans hzero))
  · obtain ⟨n, l, hratio, hl, -, hquot⟩ := Value.reduceRatio_exact m hd0
    have hterm := toTerm_eq hm hm0 hd hratio
      (fun f hf => (hp.top.isAtomPower f hf).isFoldable)
      (fun f hf => (hp.bottom.isAtomPower f hf).isFoldable)
    obtain rfl := Except.ok.inj (ht.symm.trans hterm)
    exact .inr ⟨by simpa using Value.ne_zero_of_ratio hquot hm0 hd0, rfl, rfl⟩

end Product

theorem Factor.filter_kept (fs : List Factor) : (kept fs).filter stays = fs.filter stays := by
  unfold kept
  cases h : fs.filter stays with
  | nil => simp [Term.side, stays_placeholder]
  | cons f gs =>
    have hstays : ∀ g ∈ f :: gs, g.stays = true := fun g hg => (List.mem_filter.mp (h ▸ hg)).2
    exact List.filter_eq_self.mpr hstays

theorem Term.zero_isFinal : (Tree.term Term.zero).IsFinal I := by
  refine Tree.isFinal_term zero_normal ⟨0, meaning?_ofValue 0⟩ ⟨?_, ?_, fun _ => rfl⟩ ?_
  · exact (Tree.allTerms_term.mp zero_inLowestTerms).1
  · simp [bases, zero, ofValue, side, Factor.stays_placeholder]
  · intro f hf
    obtain rfl : f = .placeholder := by simpa [zero, ofValue, side] using hf
    exact Tree.isFinal_number 1

namespace Term

variable {n width degree limit : Nat} {t v : Term} {q : Rat}

theorem isFinal_of_simplifyBy (hcanonical : Canonizes I width limit (Tree.canonicalWith n))
    (ht : t.IsReady width degree limit) (hq : t.meaning? I = some q)
    (hsteps : enoughSteps width limit ≤ n)
    (hbases : ∀ f ∈ t.top ++ t.bottom, f.base.HasCanonicalForms I)
    (hv : t.simplifyBy n (Tree.canonicalWith n) = .ok v) : (Tree.term v).IsFinal I := by
  obtain ⟨s, hs, hsq, hwithin, -⟩ := simplifyBy_ready hcanonical ht hq hsteps
  obtain rfl := Except.ok.inj (hs.symm.trans hv)
  have haffords := ht.affords hsteps
  obtain ⟨least, hfits, -, heffort⟩ := ht
  obtain ⟨p, p', hp, hp', hcancels, hgathered, hmeaning, hdisjoint, -⟩ :=
    gathers_ok hcanonical le_rfl hq heffort haffords fun w hw => hw.weight_le hfits heffort hq
  have hcanonicalBases : p'.HasCanonicalBases I :=
    hcancels.hasCanonicalBases <| Product.run_isCanonical hp (List.forall_mem_nil _) <|
      Product.forall_mem_items (R := fun f => f.base.HasCanonicalForms I) hbases
  have hterm : t.multiplier.isZero = true ∧ s = .zero ∨ p'.toTerm = .ok s := by
    unfold simplifyBy at hs
    split at hs
    · next hzero => exact .inl ⟨hzero, (Except.ok.inj hs).symm⟩
    · rw [hp, ok_bind, hp'] at hs
      exact .inr hs
  have hcases : s = .zero ∨ s.multiplier.isZero = false ∧ s.top = Factor.kept p'.top ∧
      s.bottom = Factor.kept p'.bottom :=
    hterm.elim (fun h => .inl h.2) (Product.toTerm_cases hgathered hmeaning)
  rcases hcases with rfl | ⟨hnonzero, htop, hbottom⟩
  · exact zero_isFinal
  refine Tree.isFinal_term hwithin.normal ⟨q, hsq⟩ ⟨?_, ?_, fun hzero => ?_⟩ ?_
  · exact (Tree.allTerms_term.mp hwithin.tidy.lowest).1
  · -- folding only drops factors, and no base stands in the product twice
    rw [bases, htop, hbottom, List.filter_append, Factor.filter_kept, Factor.filter_kept,
      ← List.filter_append]
    have hnodup : ((p'.top ++ p'.bottom).map (·.base)).Nodup := by
      rw [List.map_append]
      exact List.nodup_append.mpr ⟨hgathered.top.nodup, hgathered.bottom.nodup,
        fun a ha b hb hab => hdisjoint ha (hab ▸ hb)⟩
    exact (List.filter_sublist.map _).nodup hnodup
  · rw [hnonzero] at hzero
    cases hzero
  · obtain ⟨htops, hbottoms⟩ := List.forall_mem_append.mp hcanonicalBases
    have hkept : ∀ fs : List Factor, (∀ f ∈ fs, f.base.IsCanonical I) →
        ∀ f ∈ Factor.kept fs, f.base.IsFinal I := by
      intro fs hfs f hf
      rcases Factor.mem_kept hf with hf | rfl
      · exact (hfs f hf).final
      · exact Tree.isFinal_number 1
    rw [htop, hbottom]
    exact List.forall_mem_append.mpr ⟨hkept _ htops, hkept _ hbottoms⟩

end Term

namespace Factor

/-- No two of the powers have the same base, and the bases have a meaning. -/
structure AreDistinct (I : Interpretation) (fs : List Factor) : Prop where
  mean : AllMean I fs
  nodup : (fs.map (·.base)).Nodup

theorem AreDistinct.congr {fs gs : List Factor} (h : AreDistinct I fs)
    (hbases : (gs.map (·.base)).Perm (fs.map (·.base))) : AreDistinct I gs := by
  refine ⟨fun g hg => ?_, hbases.nodup_iff.mpr h.nodup⟩
  obtain ⟨f, hf, hbase⟩ := List.mem_map.mp (hbases.mem_iff.mp (List.mem_map_of_mem hg))
  exact hbase ▸ h.mean f hf

theorem AreDistinct.of_cons {f : Factor} {fs gs : List Factor} (h : AreDistinct I fs)
    (hperm : fs.Perm (f :: gs)) : AreDistinct I gs :=
  ⟨fun g hg => h.mean g (hperm.mem_iff.mpr (List.mem_cons_of_mem _ hg)),
    (List.nodup_cons.mp ((hperm.map _).nodup_iff.mp h.nodup)).2⟩

theorem AreDistinct.of_append {fs gs : List Factor} (h : AreDistinct I (fs ++ gs)) :
    AreDistinct I gs := by
  have hnodup := h.nodup
  rw [List.map_append] at hnodup
  exact ⟨fun g hg => h.mean g (List.mem_append_right _ hg), (List.nodup_append.mp hnodup).2.1⟩

theorem foldl_mergeWhole_perm {fs merged gs : List Factor} (hfs : AreDistinct I fs)
    (hperm : fs.Perm (merged ++ gs)) :
    (gs.foldl mergeWhole fs).Perm (merged ++ gs.map (raisedBy 2)) := by
  induction gs generalizing fs merged with
  | nil => simpa using hperm
  | cons g gs ih =>
    have hg : g ∈ fs := hperm.mem_iff.mpr (List.mem_append_right _ List.mem_cons_self)
    obtain ⟨hlookup, hrest, hset⟩ := exponentOf?_of_mem hg hfs.mean hfs.nodup
    have herased : (eraseBase g.base fs).Perm (merged ++ gs) :=
      (hrest.symm.trans (hperm.trans List.perm_middle)).cons_inv
    have hmerge : (mergeWhole fs g).Perm (raisedBy 2 g :: eraseBase g.base fs) := by
      simp only [mergeWhole, hlookup, raisedBy, mul_two]
      exact hset _
    have hbases : ((mergeWhole fs g).map (·.base)).Perm (fs.map (·.base)) :=
      (hmerge.map _).trans (hrest.map (·.base)).symm
    have hnext : (mergeWhole fs g).Perm (merged ++ [raisedBy 2 g] ++ gs) := by
      rw [List.append_assoc]
      exact (hmerge.trans (herased.cons _)).trans List.perm_middle.symm
    simpa using ih (hfs.congr hbases) hnext

end Factor

namespace Product

theorem foldlM_cancelBase_squares {canonical : Tree → Except Fault Tree}
    (hnumber : ∀ v, canonical (.number v) = .ok (.number v)) {p : Product}
    {others cancelled gs : List Factor} (htop : Factor.AreDistinct I p.top)
    (hbottom : Factor.AreDistinct I p.bottom) (htops : p.top.Perm (others ++ gs))
    (hbottoms : p.bottom.Perm (cancelled ++ gs.map (Factor.raisedBy 2)))
    (hgs : ∀ g ∈ gs, ∃ k : Int, 0 < k ∧ g.exponent = .whole k) :
    ∃ p', gs.foldlM (fun p f => p.cancelBase canonical f.base) p = .ok p' ∧
      p'.multiplier = p.multiplier ∧ p'.divisor = p.divisor ∧ p'.top.Perm others ∧
      p'.bottom.Perm (cancelled ++ gs) := by
  induction gs generalizing p cancelled with
  | nil => exact ⟨p, rfl, rfl, rfl, by simpa using htops, by simpa using hbottoms⟩
  | cons g gs ih =>
    obtain ⟨⟨k, hk, hexponent⟩, hothers⟩ := List.forall_mem_cons.mp hgs
    obtain ⟨b, e⟩ := g
    simp only at hexponent
    subst hexponent
    have hraised : Factor.raisedBy 2 ⟨b, .whole k⟩ = ⟨b, .whole (k * 2)⟩ := by
      simp [Factor.raisedBy]
    rw [List.map_cons, hraised] at hbottoms
    obtain ⟨hlookup, hrest, -⟩ := Factor.exponentOf?_of_mem (htops.mem_iff.mpr
      (List.mem_append_right _ List.mem_cons_self)) htop.mean htop.nodup
    obtain ⟨hlookup', hrest', -⟩ := Factor.exponentOf?_of_mem (hbottoms.mem_iff.mpr
      (List.mem_append_right _ List.mem_cons_self)) hbottom.mean hbottom.nodup
    have hneg : k - k * 2 < 0 := by omega
    have hcancel : p.cancelBase canonical b = .ok { p with
        top := Factor.eraseBase b p.top
        bottom := Factor.eraseBase b p.bottom ++ [⟨b, .whole k⟩] } := by
      rw [cancelBase_eq hnumber hlookup hlookup', Product.cancelled, if_pos hneg]
      simp only [neg_sub, mul_two, add_sub_cancel_right]
    have herased : (Factor.eraseBase b p.top).Perm (others ++ gs) :=
      (hrest.symm.trans (htops.trans List.perm_middle)).cons_inv
    have herased' : (Factor.eraseBase b p.bottom).Perm
        (cancelled ++ gs.map (Factor.raisedBy 2)) :=
      (hrest'.symm.trans (hbottoms.trans List.perm_middle)).cons_inv
    have hadded : (Factor.eraseBase b p.bottom ++ [(⟨b, .whole k⟩ : Factor)]).Perm
        (⟨b, .whole k⟩ :: Factor.eraseBase b p.bottom) := List.perm_append_singleton _ _
    have hbases : ((Factor.eraseBase b p.bottom ++ [(⟨b, .whole k⟩ : Factor)]).map (·.base)).Perm
        (p.bottom.map (·.base)) := (hadded.map _).trans (hrest'.map (·.base)).symm
    have hnext : (Factor.eraseBase b p.bottom ++ [(⟨b, .whole k⟩ : Factor)]).Perm
        (cancelled ++ [⟨b, .whole k⟩] ++ gs.map (Factor.raisedBy 2)) := by
      rw [List.append_assoc]
      exact (hadded.trans (herased'.cons _)).trans List.perm_middle.symm
    obtain ⟨p', hp', hm, hd, htops', hbottoms'⟩ := ih (p := { p with
      top := Factor.eraseBase b p.top
      bottom := Factor.eraseBase b p.bottom ++ [⟨b, .whole k⟩] }) (htop.of_cons hrest)
      (hbottom.congr hbases) herased hnext hothers
    refine ⟨p', by rw [List.foldlM_cons, hcancel, ok_bind, hp'], hm, hd, htops', ?_⟩
    simpa using hbottoms'

/-- A product in which some of the powers on top stand at the bottom as squares keeps the others on
top and those at the bottom. -/
theorem cancel_squares {canonical : Tree → Except Fault Tree}
    (hnumber : ∀ v, canonical (.number v) = .ok (.number v)) {p : Product}
    {others gs : List Factor} (htop : Factor.AreDistinct I p.top)
    (hbottom : Factor.AreDistinct I p.bottom) (htops : p.top = others ++ gs)
    (hbottoms : p.bottom.Perm (gs.map (Factor.raisedBy 2)))
    (hgs : ∀ g ∈ gs, ∃ k : Int, 0 < k ∧ g.exponent = .whole k) :
    ∃ p', p.cancel canonical = .ok p' ∧ p'.multiplier = p.multiplier ∧ p'.divisor = p.divisor ∧
      p'.top.Perm others ∧ p'.bottom.Perm gs := by
  have hnodup := htop.nodup
  rw [htops, List.map_append] at hnodup
  have hboth : (p.top.filter fun f => (Factor.exponentOf? p.bottom f.base).isSome) = gs := by
    have hothers : (others.filter fun f => (Factor.exponentOf? p.bottom f.base).isSome) = [] := by
      rw [List.filter_eq_nil_iff]
      intro f hf
      obtain ⟨x, hx⟩ := htop.mean f (htops ▸ List.mem_append_left _ hf)
      have hmem : f.base ∉ p.bottom.map (·.base) := by
        intro hmem
        obtain ⟨g', hg', hbase⟩ := List.mem_map.mp ((hbottoms.map _).mem_iff.mp hmem)
        obtain ⟨g, hg, rfl⟩ := List.mem_map.mp hg'
        exact (List.nodup_append.mp hnodup).2.2 _ (List.mem_map_of_mem hf) _
          (List.mem_map_of_mem hg) hbase.symm
      simp [Factor.exponentOf?_eq_none hx hbottom.mean hmem]
    have hsquares : (gs.filter fun f => (Factor.exponentOf? p.bottom f.base).isSome) = gs := by
      rw [List.filter_eq_self]
      intro g hg
      have hmem := hbottoms.mem_iff.mpr (List.mem_map_of_mem hg)
      have hlookup := (Factor.exponentOf?_of_mem hmem hbottom.mean hbottom.nodup).1
      simp only [Factor.raisedBy] at hlookup
      simp [hlookup]
    rw [htops, List.filter_append, hothers, hsquares, List.nil_append]
  rw [cancel, hboth]
  have hcancelled : p.bottom.Perm ([] ++ gs.map (Factor.raisedBy 2)) := hbottoms
  exact foldlM_cancelBase_squares hnumber htop hbottom (List.Perm.of_eq htops) hcancelled hgs

end Product

namespace Term

theorem canonical_widened {canonical : Tree → Except Fault Tree} {s t : Term} (c d : Rat)
    (hbottoms : s.bottom.Perm t.bottom)
    (hbases : ∀ f ∈ s.top ++ s.bottom, canonical f.base = .ok f.base) :
    ∀ f ∈ (s.widened t c d).top ++ (s.widened t c d).bottom, f.Normal →
      canonical f.base = .ok f.base := by
  have hkept : ∀ fs : List Factor, (∀ f ∈ fs, f ∈ s.top ++ s.bottom) →
      ∀ f ∈ Factor.kept fs, f.Normal → canonical f.base = .ok f.base := by
    intro fs hfs f hf hfnormal
    rcases Factor.mem_kept hf with hf | rfl
    · exact hbases f (hfs f hf)
    · exact (Factor.normal_iff.mp hfnormal).1.elim
  have hmem : ∀ f ∈ t.bottom, f ∈ s.top ++ s.bottom :=
    fun f hf => List.mem_append_right _ (hbottoms.mem_iff.mpr hf)
  exact List.forall_mem_append.mpr
    ⟨hkept _ (List.forall_mem_append.mpr ⟨fun f hf => List.mem_append_left _ hf, hmem⟩),
      hkept _ (List.forall_mem_append.mpr ⟨fun f hf => List.mem_append_right _ hf, hmem⟩)⟩

/-- Gathering the factors of a widened term takes the powers of the denominator in once more: they
stand on top, and squared at the bottom. -/
theorem run_widened {canonical : Tree → Except Fault Tree} {steps : Nat} {s t : Term}
    {c d p : Rat} (hnumber : ∀ v, canonical (.number v) = .ok (.number v))
    (hs : s.Normal) (ht : t.Normal) (hp : s.meaning? I = some p) (hnodup : s.bases.Nodup)
    (hbottoms : s.bottom.Perm t.bottom)
    (hbases : ∀ f ∈ s.top ++ s.bottom, canonical f.base = .ok f.base)
    (hsteps : (s.widened t c d).top.length + (s.widened t c d).bottom.length ≤ steps) :
    ∃ squares, Product.run canonical steps ⟨.exact c, .exact d, [], []⟩
        (Product.items (s.widened t c d).top (s.widened t c d).bottom true) =
          .ok ⟨.exact c, .exact d, s.top.filter Factor.stays ++ t.bottom.filter Factor.stays,
            squares⟩ ∧
      squares.Perm ((t.bottom.filter Factor.stays).map (Factor.raisedBy 2)) ∧
      Factor.AreDistinct I (s.top.filter Factor.stays ++ t.bottom.filter Factor.stays) ∧
      Factor.AreDistinct I squares := by
  obtain ⟨hfoldable, hfoldable'⟩ := hs.isFoldable_widened ht
  have hnormal : (s.widened t c d).Normal := normal_iff.mpr
    ⟨⟨c, rfl⟩, ⟨d, rfl⟩, Factor.normalSide_kept hfoldable, Factor.normalSide_kept hfoldable'⟩
  have hrun := run_normal hnumber hnormal (canonical_widened c d hbottoms hbases) hsteps
  have hperm : (s.bottom.filter Factor.stays).Perm (t.bottom.filter Factor.stays) :=
    hbottoms.filter _
  have hdistinct : Factor.AreDistinct I
      (s.top.filter Factor.stays ++ s.bottom.filter Factor.stays) := by
    rw [← List.filter_append]
    exact ⟨fun f hf => exists_base_meaning hp f (List.mem_of_mem_filter hf), hnodup⟩
  have hbottomDistinct := hdistinct.of_append
  have htopDistinct : Factor.AreDistinct I
      (s.top.filter Factor.stays ++ t.bottom.filter Factor.stays) :=
    hdistinct.congr ((hperm.symm.append_left _).map _)
  have htopRun : ((s.widened t c d).top.filter Factor.stays).foldl Factor.mergeWhole [] =
      s.top.filter Factor.stays ++ t.bottom.filter Factor.stays := by
    rw [widened, Factor.filter_kept, List.filter_append]
    exact Factor.foldl_mergeWhole_eq_append (List.forall_mem_nil _) htopDistinct.mean
      htopDistinct.nodup
  have hbottomRun : ((s.widened t c d).bottom.filter Factor.stays).foldl Factor.mergeWhole [] =
      (t.bottom.filter Factor.stays).foldl Factor.mergeWhole (s.bottom.filter Factor.stays) := by
    rw [widened, Factor.filter_kept, List.filter_append, List.foldl_append,
      Factor.foldl_mergeWhole_eq_append (List.forall_mem_nil _) hbottomDistinct.mean
        hbottomDistinct.nodup]
    rfl
  rw [htopRun, hbottomRun] at hrun
  have hsquares := Factor.foldl_mergeWhole_perm hbottomDistinct
    (hperm.trans (List.Perm.of_eq (List.nil_append _).symm))
  have hsquaresDistinct := hbottomDistinct.congr <|
    (hsquares.map (·.base)).trans (by simpa [Function.comp_def, Factor.raisedBy] using
      (hperm.map (·.base)).symm)
  exact ⟨_, hrun, hsquares, htopDistinct, hsquaresDistinct⟩

theorem simplifyBy_widened {canonical : Tree → Except Fault Tree} {steps : Nat} {s t : Term}
    {c d m l p : Rat} (hnumber : ∀ v, canonical (.number v) = .ok (.number v))
    (hs : s.Normal) (ht : t.Normal) (hp : s.meaning? I = some p)
    (hnodup : s.bases.Nodup) (hbottoms : s.bottom.Perm t.bottom)
    (hpositive : ∀ f ∈ s.bottom, 0 < f.exponent.wholePart) (hc0 : c ≠ 0)
    (hratio : Value.reduceRatio (.exact c) (.exact d) = .ok (.exact m, .exact l))
    (hbases : ∀ f ∈ s.top ++ s.bottom, canonical f.base = .ok f.base)
    (hsteps : (s.widened t c d).top.length + (s.widened t c d).bottom.length ≤ steps) :
    ∃ v, (s.widened t c d).simplifyBy steps canonical = .ok v ∧ v.multiplier = .exact m ∧
      v.divisor = .exact l ∧ v.SameFactors s := by
  obtain ⟨-, -, htop, hbottom⟩ := normal_iff.mp hs
  obtain ⟨-, -, -, hbottom'⟩ := normal_iff.mp ht
  obtain ⟨squares, hrun, hsquares, htopDistinct, hsquaresDistinct⟩ :=
    run_widened hnumber hs ht hp hnodup hbottoms hbases hsteps
  have hpowers : ∀ g ∈ t.bottom.filter Factor.stays,
      ∃ k : Int, 0 < k ∧ g.exponent = .whole k := by
    intro g hg
    have hg := List.mem_of_mem_filter hg
    obtain ⟨k, hk⟩ := hbottom'.allWhole g hg
    have hpos := hpositive g (hbottoms.mem_iff.mpr hg)
    rw [hk, Tree.wholePart_whole] at hpos
    exact ⟨k, hpos, hk⟩
  obtain ⟨p', hcancel, hm, hd, htops, hbots⟩ := Product.cancel_squares hnumber
    (p := ⟨.exact c, .exact d, _, _⟩) htopDistinct hsquaresDistinct rfl hsquares hpowers
  have hterm := Product.toTerm_eq hm hc0 hd hratio
    (fun f hf => htop.isFoldable f (List.mem_of_mem_filter (htops.mem_iff.mp hf)))
    (fun f hf => hbottom'.isFoldable f (List.mem_of_mem_filter (hbots.mem_iff.mp hf)))
  have hnonzero : (s.widened t c d).multiplier.isZero = false := by simpa [widened] using hc0
  refine ⟨⟨.exact m, .exact l, Factor.kept p'.top, Factor.kept p'.bottom⟩, ?_, rfl, rfl, ?_, ?_⟩
  · rw [simplifyBy, hnonzero]
    change (do (← (← Product.run canonical steps ⟨.exact c, .exact d, [], []⟩ _).cancel _).toTerm) = _
    simp only [hrun, hcancel, hterm, ok_bind]
  · have h := Factor.kept_perm htops
    rwa [htop.kept_filter] at h
  · have h := Factor.kept_perm hbots
    rw [hbottom'.kept_filter] at h
    exact h.trans hbottoms.symm

end Term

theorem Factor.NormalSide.perm {fs gs : List Factor} (h : NormalSide fs) (hperm : gs.Perm fs) :
    NormalSide gs := by
  rcases h with rfl | ⟨hne, hfs⟩
  · exact .inl (List.perm_singleton.mp hperm)
  · refine .inr ⟨?_, fun f hf => hfs f (hperm.mem_iff.mp hf)⟩
    rintro rfl
    exact hne (List.nil_perm.mp hperm)

theorem Tree.IsFinal.of_sameFactors {s v : Term} (h : (term s).IsFinal I) (hsame : v.SameFactors s)
    (hlowest : Term.InLowestTerms v) (hnonzero : v.multiplier.isZero = false) :
    (term v).IsFinal I := by
  obtain ⟨htop, hbottom⟩ := hsame
  obtain ⟨q, hq⟩ := h.meaning
  obtain ⟨-, -, a, k, -, -, ha, hk, -, hk0, -⟩ := Term.meaning?_eq_some.mp hq
  obtain ⟨n, l, hn, hl, hpos, -⟩ := id hlowest
  obtain ⟨-, -, hstop, hsbottom⟩ := Term.normal_iff.mp h.normal
  have hl0 : (l : Rat) ≠ 0 := by exact_mod_cast hpos.ne'
  have hfactors := htop.append hbottom
  refine isFinal_term (Term.normal_iff.mpr ⟨⟨n, hn⟩, ⟨l, hl⟩, hstop.perm htop, hsbottom.perm hbottom⟩)
    ⟨_, Term.meaning?_eq_some.mpr ⟨n, l, a, k, hn, hl, (Factor.product?_perm htop).trans ha,
      (Factor.product?_perm hbottom).trans hk, hl0, hk0, rfl⟩⟩ ⟨hlowest, ?_, fun hzero => ?_⟩ ?_
  · exact ((hfactors.filter _).map _).nodup_iff.mpr h.isFinal_self.nodup
  · rw [hnonzero] at hzero
    cases hzero
  · exact fun f hf => (h.base f (hfactors.mem_iff.mp hf)).final

theorem Tree.IsCanonical.canonicalWith_eq {c : Tree} {n : Nat} (h : c.IsCanonical I)
    (hn : c.size ≤ n) : c.canonicalWith n = .ok c := by
  rw [canonicalWith, h.final.simplifyWith_eq hn]
  exact h.reduced

namespace Term

variable {n : Nat}

/-- Like terms in final form add up to zero or to a final form with the same factors and with the
coefficients added. -/
theorem total_isFinal {s t u v : Term} {c : Tree} (hs : (Tree.term s).IsFinal I)
    (hsummand : s.IsSummand) (ht : (Tree.term t).IsFinal I) (hlike : s.isLike t = true)
    (hc : s.add t = .ok c) (hu : c.toTerm = .ok u)
    (hv : u.simplifyBy n (Tree.canonicalWith n) = .ok v) :
    v = .zero ∨ (Tree.term v).IsFinal I ∧ v.SameFactors s ∧
      v.coefficient = s.coefficient + t.coefficient := by
  obtain ⟨a, ha⟩ := hs.meaning
  obtain ⟨b, hb⟩ := ht.meaning
  obtain ⟨r, hr, hrq, htotal, hsides⟩ := add_like hs.normal ht.normal ha hb hlike
  obtain rfl := Except.ok.inj (hr.symm.trans hc)
  obtain rfl := Except.ok.inj hu
  obtain ⟨m, d, -, -, hm, hd, -, -, hd0, -, -⟩ := meaning?_eq_some.mp hrq
  by_cases hm0 : m = 0
  · have hzero : r.simplifyBy n (Tree.canonicalWith n) = .ok .zero := by simp [simplifyBy, hm, hm0]
    exact .inl (Except.ok.inj (hv.symm.trans hzero))
  obtain ⟨k, l, hratio, hl, hcoprime, hquot⟩ := Value.reduceRatio_exact m hd0
  have hk0 := Value.ne_zero_of_ratio hquot hm0 hd0
  -- enough steps for the bases and for the queue
  let N := max n (s.size + (r.top.length + r.bottom.length))
  have hN : n ≤ N := Nat.le_max_left _ _
  have hsize : s.size + (r.top.length + r.bottom.length) ≤ N := Nat.le_max_right _ _
  have hvN : r.simplifyBy N (Tree.canonicalWith N) = .ok v := by
    rcases simplifyBy_approximates (Tree.canonicalWith_approximates hN) hN r with hexhausted | hsame
    · rw [hexhausted] at hv
      cases hv
    · rwa [← hsame]
  have hnumber : ∀ v, Tree.canonicalWith N (.number v) = .ok (.number v) := by
    intro v
    have hpos := s.length_add_length_lt_size
    obtain ⟨k, hk⟩ : ∃ k, N = k + 1 := ⟨N - 1, by omega⟩
    rw [hk]
    rfl
  have hbases : ∀ f ∈ s.top ++ s.bottom, Tree.canonicalWith N f.base = .ok f.base := by
    intro f hf
    have hlt := Tree.base_size_lt hf
    exact (hs.base f hf).canonicalWith_eq (by omega)
  have hshape : ∃ w, r.simplifyBy N (Tree.canonicalWith N) = .ok w ∧ w.multiplier = .exact k ∧
      w.divisor = .exact l ∧ w.SameFactors s := by
    obtain ⟨-, hbottoms⟩ := (isLike_iff ha hb).mp hlike
    rcases hsides with ⟨htop, hbottom⟩ | ⟨m', d', rfl⟩
    · obtain ⟨-, -, hstop, hsbottom⟩ := normal_iff.mp hs.normal
      have hnormal : r.Normal := normal_iff.mpr ⟨⟨m, hm⟩, ⟨d, hd⟩, htop ▸ hstop, hbottom ▸ hsbottom⟩
      have hnodup : r.bases.Nodup := by
        rw [bases, htop, hbottom]
        exact hs.isFinal_self.nodup
      refine ⟨_, simplifyBy_of_nodup hnumber hnormal hrq hnodup hm hm0 hd hratio ?_ (by omega), rfl,
        rfl, List.Perm.of_eq htop, List.Perm.of_eq hbottom⟩
      rw [htop, hbottom]
      exact fun f hf _ => hbases f hf
    · obtain rfl : m' = m := by simpa [widened] using hm
      obtain rfl : d' = d := by simpa [widened] using hd
      exact simplifyBy_widened hnumber hs.normal ht.normal ha hs.isFinal_self.nodup hbottoms
        hsummand.positive hm0 hratio hbases (by omega)
  obtain ⟨w, hw, hwm, hwd, hsame⟩ := hshape
  obtain rfl := Except.ok.inj (hw.symm.trans hvN)
  refine .inr ⟨hs.of_sameFactors hsame ⟨k, l, hwm, hwd, hl, hcoprime⟩ (by simpa [hwm] using hk0),
    hsame, ?_⟩
  rw [coefficient_eq hwm hwd, hquot, ← htotal, coefficient_eq hm hd]

/-- The term keeps its factors when terms like it are added to it, and if it is a sum with a
coefficient, this is at least one, so that it never becomes one by adding others to it. -/
structure IsSteady (t : Term) : Prop where
  positive : ∀ f ∈ t.bottom, 0 < f.exponent.wholePart
  multiple : t.IsMultipleOfSum → 1 ≤ t.coefficient

/-- Terms in final form that are added to a sum, no two of them with the same factors. -/
structure AreCombined (I : Interpretation) (ts : List Term) : Prop where
  isFinal : ∀ t ∈ ts, (Tree.term t).IsFinal I
  isSummand : ∀ t ∈ ts, t.IsSummand
  unlike : ts.Pairwise fun s t => ¬ s.SameFactors t

theorem SameFactors.symm {s t : Term} (h : s.SameFactors t) : t.SameFactors s := ⟨h.1.symm, h.2.symm⟩

theorem SameFactors.trans {s t u : Term} (h : s.SameFactors t) (h' : t.SameFactors u) :
    s.SameFactors u := ⟨h.1.trans h'.1, h.2.trans h'.2⟩

theorem SameFactors.isMultipleOfSum {s t : Term} (h : s.SameFactors t) (hs : s.IsMultipleOfSum) :
    t.IsMultipleOfSum := by
  obtain ⟨ts, htop, hbottom⟩ := hs
  exact ⟨ts, List.perm_singleton.mp (htop ▸ h.1.symm), List.perm_singleton.mp (hbottom ▸ h.2.symm)⟩

/-- Summands with the same factors add up to a summand, unless they vanish. -/
theorem SameFactors.isSummand {s t v : Term} (h : v.SameFactors s) (ht : s.SameFactors t)
    (hs : s.IsSummand) (ht' : t.IsSummand) (hv : v.isZero = .ok false)
    (hcoefficient : v.coefficient = s.coefficient + t.coefficient) : v.IsSummand := by
  refine ⟨hv, fun f hf => hs.positive f (h.2.mem_iff.mp hf), fun hmultiple => ?_⟩
  have hs1 := hs.multiple (h.isMultipleOfSum hmultiple)
  have ht1 := ht'.multiple (ht.isMultipleOfSum (h.isMultipleOfSum hmultiple))
  linarith

theorem areCombined_cons {t : Term} {ts : List Term} :
    AreCombined I (t :: ts) ↔ ((Tree.term t).IsFinal I ∧ t.IsSummand ∧
      ∀ s ∈ ts, ¬ t.SameFactors s) ∧ AreCombined I ts := by
  constructor
  · rintro ⟨hfinal, hsummand, hunlike⟩
    obtain ⟨hfirst, hothers⟩ := List.forall_mem_cons.mp hfinal
    obtain ⟨hfirst', hothers'⟩ := List.forall_mem_cons.mp hsummand
    obtain ⟨hne, hrest⟩ := List.pairwise_cons.mp hunlike
    exact ⟨⟨hfirst, hfirst', hne⟩, hothers, hothers', hrest⟩
  · rintro ⟨⟨hfirst, hfirst', hne⟩, hothers, hothers', hrest⟩
    exact ⟨List.forall_mem_cons.mpr ⟨hfirst, hothers⟩, List.forall_mem_cons.mpr ⟨hfirst', hothers'⟩,
      List.pairwise_cons.mpr ⟨hne, hrest⟩⟩

theorem isZero_zero : zero.isZero = .ok true := rfl

/-- Combining a term with others brings in no factors but its own. -/
theorem combine_areCombined {combined combined' : List Term} {t : Term}
    (h : combine n (Tree.canonicalWith n) combined t = .ok combined')
    (hcombined : AreCombined I combined) (ht : (Tree.term t).IsFinal I) (hsummand : t.IsSummand) :
    AreCombined I combined' ∧ ∀ s' ∈ combined', ∃ s ∈ t :: combined, s'.SameFactors s := by
  have hself : ∀ {ss : List Term} (s' : Term), s' ∈ ss → ∃ s ∈ ss, s'.SameFactors s :=
    fun s' hs' => ⟨s', hs', List.Perm.refl _, List.Perm.refl _⟩
  induction combined generalizing combined' with
  | nil =>
    obtain rfl := Except.ok.inj h
    exact ⟨areCombined_cons.mpr ⟨⟨ht, hsummand, by simp⟩, hcombined⟩, hself⟩
  | cons other rest ih =>
    obtain ⟨⟨hother, hother', hne⟩, hrest⟩ := areCombined_cons.mp hcombined
    rcases combine_cons_cases h with ⟨hlike, c, u, v, hc, hu, hv, hcases⟩ |
      ⟨hunlike, rest', hrest', rfl⟩
    · rcases hcases with ⟨-, rfl⟩ | ⟨hnonzero, rfl⟩
      · exact ⟨hrest, fun s hs => ⟨s, List.mem_cons_of_mem _ (List.mem_cons_of_mem _ hs),
          List.Perm.refl _, List.Perm.refl _⟩⟩
      · rcases total_isFinal hother hother' ht hlike hc hu hv with rfl | ⟨hfinal, hsame, htotal⟩
        · cases isZero_zero.symm.trans hnonzero
        · obtain ⟨a, ha⟩ := hother.meaning
          obtain ⟨b, hb⟩ := ht.meaning
          have hv' := hsame.isSummand ((isLike_iff ha hb).mp hlike) hother' hsummand hnonzero htotal
          refine ⟨areCombined_cons.mpr ⟨⟨hfinal, hv',
            fun s hs hvs => hne s hs (hsame.symm.trans hvs)⟩, hrest⟩, List.forall_mem_cons.mpr ⟨?_, ?_⟩⟩
          · exact ⟨other, by simp, hsame⟩
          · exact fun s hs => ⟨s, by simp [hs], List.Perm.refl _, List.Perm.refl _⟩
    · obtain ⟨hcombined', hfactors⟩ := ih hrest' hrest
      obtain ⟨a, ha⟩ := hother.meaning
      obtain ⟨b, hb⟩ := ht.meaning
      have hnot := (isLike_eq_false_iff ha hb).mp hunlike
      refine ⟨areCombined_cons.mpr ⟨⟨hother, hother', fun s' hs' hsame => ?_⟩, hcombined'⟩,
        List.forall_mem_cons.mpr ⟨⟨other, by simp, List.Perm.refl _, List.Perm.refl _⟩, ?_⟩⟩
      · obtain ⟨s, hs, hsame'⟩ := hfactors s' hs'
        rcases List.mem_cons.mp hs with rfl | hs
        · exact hnot (hsame.trans hsame')
        · exact hne s hs (hsame.trans hsame')
      · intro s' hs'
        obtain ⟨s, hs, hsame⟩ := hfactors s' hs'
        exact ⟨s, (List.mem_cons.mp hs).elim (fun h => by simp [h]) (fun h => by simp [h]), hsame⟩

/-- Whatever the term is simplified to is final and steady. -/
def BecomesFinal (I : Interpretation) (n : Nat) (t : Term) : Prop :=
  ∀ v : Term, t.simplifyBy n (Tree.canonicalWith n) = .ok v →
    (Tree.term v).IsFinal I ∧ v.IsSteady

theorem IsSummand.isSteady {t : Term} (h : t.IsSummand) : t.IsSteady :=
  ⟨h.positive, fun hmultiple => (h.multiple hmultiple).le⟩

theorem IsSummand.becomesFinal {t : Term} (h : t.IsSummand) (ht : (Tree.term t).IsFinal I) :
    t.BecomesFinal I n := by
  intro v hv
  obtain rfl := ht.eq_of_simplifyBy hv
  exact ⟨ht, h.isSteady⟩

/-- A steady term that is neither zero nor turns out to be a sum can be added to a sum. -/
theorem IsSteady.isSummand {u : Term} {c : Tree} (h : u.IsSteady) (hu : (Tree.term u).IsFinal I)
    (hc : u.reduce = .ok c) (hnot : ∀ ts, c ≠ .sum ts) (hnonzero : u.isZero = .ok false) :
    u.IsSummand := by
  refine ⟨hnonzero, h.positive, fun hmultiple => lt_of_le_of_ne (h.multiple hmultiple) ?_⟩
  intro hone
  obtain ⟨ts, htop, hbottom⟩ := hmultiple
  -- in lowest terms the coefficient is one only if both of its parts are
  obtain ⟨n, d, hn, hd, hpos, hcoprime⟩ := hu.isFinal_self.lowest
  rw [coefficient_eq hn hd, eq_comm, div_eq_one_iff_eq (by exact_mod_cast hpos.ne')] at hone
  obtain rfl : n = d := by exact_mod_cast hone
  obtain rfl : n = 1 := by
    rw [Int.gcd_self] at hcoprime
    omega
  have hbase := hu.base ⟨.sum ts, .one⟩ (by simp [htop])
  obtain ⟨m, d, top, bottom⟩ := u
  simp only [Int.cast_one] at htop hbottom hn hd
  subst htop hbottom hn hd
  exact hnot ts (Except.ok.inj (hc.symm.trans (reduce_wrapped trivial hbase.final.normal)))

theorem combineStep_areCombined {combined combined' more : List Term} {t : Term}
    (h : combineStep n (Tree.canonicalWith n) combined t = .ok (combined', more))
    (hcombined : AreCombined I combined) (ht : t.BecomesFinal I n) :
    AreCombined I combined' ∧ ∀ s ∈ more, s.BecomesFinal I n := by
  obtain ⟨u, c, hu, hc, hcases⟩ := combineStep_cases h
  obtain ⟨hfinal, hsteady⟩ := ht u hu
  rcases hcases with ⟨rfl, rfl⟩ | ⟨hnot, rfl, ⟨-, rfl⟩ | ⟨hnonzero, hcombine⟩⟩
  · -- the sum that the term turns out to be is final, and so are its terms
    obtain ⟨r, hr, hcanonical⟩ := hfinal.reduce
    obtain rfl := Except.ok.inj (hr.symm.trans hc)
    have hsum := hcanonical.final
    exact ⟨hcombined, fun s hs =>
      ((hsum.nodes _ (Tree.self_mem_nodes _)).isSummand s hs).becomesFinal (hsum.summand s hs)⟩
  · exact ⟨hcombined, by simp⟩
  · exact ⟨(combine_areCombined hcombine hcombined hfinal
      (hsteady.isSummand hfinal hc hnot hnonzero)).1, by simp⟩

/-- A sum of terms with final and steady forms is simplified to a zero or to terms between which
nothing is left to do. -/
theorem areFinal_of_simplifySumBy {ts ss : List Term}
    (h : simplifySumBy n (Tree.canonicalWith n) ts = .ok ss)
    (hts : ∀ t ∈ ts, t.BecomesFinal I n) :
    ss = [zero] ∨ ss ≠ [] ∧ AreFinal ss ∧ ∀ s ∈ ss, (Tree.term s).IsFinal I := by
  obtain ⟨combined, hrun, h⟩ := bind_eq_ok.mp h
  have hcombined : AreCombined I combined :=
    combineAll_keeps (P := AreCombined I) (R := BecomesFinal I n) combineStep_areCombined hrun
      ⟨by simp, by simp, List.Pairwise.nil⟩ hts
  have hfilter : combined.filterM (fun t => do return !(← t.isZero)) = .ok combined := by
    rw [filterM_eq_ok_filter (g := fun _ => true) fun t ht => by
      simp [(hcombined.isSummand t ht).nonzero]]
    simp
  rw [hfilter, ok_bind, summed] at h
  have hperm := sorted_perm h
  split at h
  · next hempty =>
    rw [if_pos hempty] at hperm
    exact .inl (List.perm_singleton.mp hperm)
  · next hne =>
    rw [if_neg hne] at hperm
    refine .inr ⟨?_, ⟨?_, sorted_sorted h, fun s hs => hcombined.isSummand s (hperm.mem_iff.mp hs)⟩,
      fun s hs => hcombined.isFinal s (hperm.mem_iff.mp hs)⟩
    · rintro rfl
      simp [List.nil_perm.mp hperm] at hne
    · exact (hperm.pairwise_iff fun hst hts => hst hts.symm).mpr hcombined.unlike

end Term

end SymbolicAlgebra
