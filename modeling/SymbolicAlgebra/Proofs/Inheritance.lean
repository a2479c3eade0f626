import SymbolicAlgebra.Proofs.Composition
import SymbolicAlgebra.Proofs.Settling
import SymbolicAlgebra.Evaluate
import SymbolicAlgebra.Expand

/-!
# Rewriting keeps compositional properties

What simplification and expansion make of a tree has every compositional property that the tree has,
and so does what evaluation makes of it if the trees that it puts in the place of variables and
constants have the property. The lemmas go through the functions in the order of their definition,
simplification for a function that brings trees to canonical form and keeps the property.
-/

namespace SymbolicAlgebra

open Outcome

variable {P : Tree → Prop}

/-- What comes out has the property if what goes in has it. -/
def Inherits (P : Tree → Prop) (canonical : Tree → Except Fault Tree) : Prop :=
  ∀ {t c : Tree}, canonical t = .ok c → P t → P c

def Product.Has (P : Tree → Prop) (p : Product) : Prop := ∀ f ∈ p.top ++ p.bottom, P (.power f)

theorem Product.Has.congr {p p' : Product} (hp : p.Has P)
    (hsides : p'.top = p.top ∧ p'.bottom = p.bottom) : p'.Has P := by
  rwa [Has, hsides.1, hsides.2]

section
variable (hP : Tree.Compositional P)
include hP

section
variable {canonical : Tree → Except Fault Tree} (hcanonical : Inherits P canonical)
include hcanonical

theorem Factor.join_inherits : (base : Tree) → {exponent : Tree} → {g : Factor} →
    join canonical base exponent = .ok g → P base → P exponent → P (.power g) := by
  intro base exponent g h hbase hexponent
  cases base with
  | power f =>
    obtain ⟨b, e⟩ := f
    obtain ⟨joins, -, h⟩ := bind_eq_ok.mp h
    cases joins with
    | true =>
      obtain ⟨product, hproduct, h⟩ := bind_eq_ok.mp h
      obtain ⟨e', he', h⟩ := bind_eq_ok.mp h
      obtain ⟨hb, he⟩ := hP.power_iff.mp hbase
      exact join_inherits b h hb (hcanonical he' (Tree.multiply_inherits hP hproduct he hexponent))
    | false =>
      obtain rfl := Except.ok.inj h
      exact hP.power_iff.mpr ⟨hbase, hexponent⟩
  | _ =>
    obtain rfl := Except.ok.inj h
    exact hP.power_iff.mpr ⟨hbase, hexponent⟩

theorem Factor.normalize_inherits {f g : Factor} (h : f.normalize canonical = .ok g)
    (hf : P (.power f)) : P (.power g) := by
  obtain ⟨base, hbase, h⟩ := bind_eq_ok.mp h
  obtain ⟨exponent, hexponent, h⟩ := bind_eq_ok.mp h
  obtain ⟨hb, he⟩ := hP.power_iff.mp hf
  exact join_inherits hP hcanonical base h (hcanonical hbase hb) (hcanonical hexponent he)

theorem Tree.canonicalSum_inherits {s t c : Tree} (h : s.canonicalSum canonical t = .ok c)
    (hs : P s) (ht : P t) : P c := by
  obtain ⟨sum, hsum, h⟩ := bind_eq_ok.mp h
  exact hcanonical h (add_inherits hP hsum hs ht)

namespace Product

theorem merge_inherits {fs gs : List Factor} {f : Factor} (h : merge canonical fs f = .ok gs)
    (hfs : ∀ g ∈ fs, P (.power g)) (hf : P (.power f)) : ∀ g ∈ gs, P (.power g) := by
  unfold merge at h
  split at h
  · next e he =>
    obtain ⟨k, hk, rfl⟩ := Factor.exponentOf?_eq_some he
    obtain ⟨sum, hsum, h⟩ := bind_eq_ok.mp h
    obtain rfl := Except.ok.inj h
    obtain ⟨hbase, hexponent⟩ := hP.power_iff.mp hf
    have hsum := Tree.canonicalSum_inherits hP hcanonical hsum
      (hP.power_iff.mp (hfs k hk)).2 hexponent
    intro g hg
    rcases Factor.mem_setExponent hg with hmem | rfl | ⟨k', hk', rfl⟩
    · exact hfs g hmem
    · exact hP.power_iff.mpr ⟨hbase, hsum⟩
    · exact hP.power_iff.mpr ⟨(hP.power_iff.mp (hfs k' hk')).1, hsum⟩
  · obtain rfl := Except.ok.inj h
    exact List.forall_mem_append.mpr ⟨hfs, List.forall_mem_singleton.mpr hf⟩

theorem gather_inherits {p p' : Product} {f : Factor} {onTop : Bool}
    (h : p.gather canonical f onTop = .ok p') (hp : p.Has P) (hf : P (.power f)) : p'.Has P := by
  obtain ⟨htop, hbottom⟩ := List.forall_mem_append.mp hp
  unfold gather at h
  split at h
  · obtain ⟨fs, hfs, h⟩ := bind_eq_ok.mp h
    obtain rfl := Except.ok.inj h
    exact List.forall_mem_append.mpr ⟨merge_inherits hP hcanonical hfs htop hf, hbottom⟩
  · obtain ⟨fs, hfs, h⟩ := bind_eq_ok.mp h
    obtain rfl := Except.ok.inj h
    exact List.forall_mem_append.mpr ⟨htop, merge_inherits hP hcanonical hfs hbottom hf⟩

omit hcanonical in
theorem raised_inherits {fs gs : List Factor} {power : Int} (h : raised fs power = .ok gs)
    (hfs : ∀ f ∈ fs, P (.power f)) : ∀ g ∈ gs, P (.power g) := by
  intro g hg
  obtain ⟨f, hf, hbase, he⟩ := mem_raised h hg
  obtain ⟨hb, hexponent⟩ := hP.power_iff.mp (hfs f hf)
  exact hP.power_iff.mpr ⟨hbase ▸ hb, Tree.multiply_inherits hP he hexponent (hP.number _)⟩

/-- A step keeps the property of the gathered factors, and those that it puts into the queue have it
with the one that it takes out. -/
theorem step_inherits {p p' : Product} {item : Item} {more : List Item}
    (h : p.step canonical item = .ok (p', more)) (hp : p.Has P) (hitem : P (.power item.factor)) :
    p'.Has P ∧ ∀ i ∈ more, P (.power i.factor) := by
  obtain ⟨f, hf, hcases⟩ := step_cases h
  have hf := Factor.normalize_inherits hP hcanonical hf hitem
  rcases hcases with ⟨hsides, rfl⟩ | ⟨hgather, rfl⟩ |
    ⟨hsides, t, power, top, bottom, hbase, htop, hbottom, rfl⟩
  · exact ⟨hp.congr hsides, by simp⟩
  · exact ⟨gather_inherits hP hcanonical hgather hp hf, by simp⟩
  · have ht : P (.term t) := hbase ▸ (hP.power_iff.mp hf).1
    exact ⟨hp.congr hsides, forall_mem_items (R := fun f => P (.power f)) <|
      List.forall_mem_append.mpr ⟨raised_inherits hP htop (Term.top_inherits hP ht),
        raised_inherits hP hbottom (Term.bottom_inherits hP ht)⟩⟩

theorem run_inherits {steps : Nat} {p p' : Product} {items : List Item}
    (h : run canonical steps p items = .ok p') (hp : p.Has P)
    (hitems : ∀ i ∈ items, P (.power i.factor)) : p'.Has P :=
  run_keeps (P := Product.Has P) (R := fun f => P (.power f)) (step_inherits hP hcanonical) h hp
    hitems

theorem cancelBase_inherits {p p' : Product} {base : Tree}
    (h : p.cancelBase canonical base = .ok p') (hp : p.Has P) (hbase : P base) : p'.Has P := by
  obtain ⟨htop, hbottom⟩ := List.forall_mem_append.mp hp
  have herase : ∀ {fs : List Factor}, (∀ g ∈ fs, P (.power g)) →
      ∀ g ∈ Factor.eraseBase base fs, P (.power g) :=
    fun hfs g hg => hfs g (List.mem_of_mem_eraseP hg)
  unfold cancelBase at h
  split at h
  · next m n hm hn =>
    obtain ⟨f, hf, rfl⟩ := Factor.exponentOf?_eq_some hm
    obtain ⟨g, hg, rfl⟩ := Factor.exponentOf?_eq_some hn
    obtain ⟨opposite, hopposite, h⟩ := bind_eq_ok.mp h
    obtain ⟨exponent, hexponent, h⟩ := bind_eq_ok.mp h
    have hexponent := Tree.canonicalSum_inherits hP hcanonical hexponent
      (hP.power_iff.mp (htop f hf)).2
      (Tree.negate_inherits hP hopposite (hP.power_iff.mp (hbottom g hg)).2)
    obtain ⟨value?, -, h⟩ := bind_eq_ok.mp h
    split at h
    · obtain ⟨negated, hnegated, h⟩ := bind_eq_ok.mp h
      obtain ⟨e, he, h⟩ := bind_eq_ok.mp h
      obtain rfl := Except.ok.inj h
      have he := hcanonical he (Tree.negate_inherits hP hnegated hexponent)
      exact List.forall_mem_append.mpr ⟨herase htop, List.forall_mem_append.mpr
        ⟨herase hbottom, List.forall_mem_singleton.mpr (hP.power_iff.mpr ⟨hbase, he⟩)⟩⟩
    · obtain ⟨zero, -, h⟩ := bind_eq_ok.mp h
      cases zero with
      | true =>
        obtain rfl := Except.ok.inj h
        exact List.forall_mem_append.mpr ⟨herase htop, herase hbottom⟩
      | false =>
        obtain rfl := Except.ok.inj h
        exact List.forall_mem_append.mpr ⟨List.forall_mem_append.mpr
          ⟨herase htop, List.forall_mem_singleton.mpr (hP.power_iff.mpr ⟨hbase, hexponent⟩)⟩,
          herase hbottom⟩
  · obtain rfl := Except.ok.inj h
    exact hp

theorem cancel_inherits {p p' : Product} (h : p.cancel canonical = .ok p') (hp : p.Has P) :
    p'.Has P := by
  refine foldlM_keeps h hp fun p₁ f hf p₂ hp₁ hp₂ => cancelBase_inherits hP hcanonical hp₂ hp₁ ?_
  exact (hP.power_iff.mp (hp f (List.mem_append_left _ (List.mem_filter.mp hf).1))).1

omit hcanonical in
theorem toTerm_inherits {p : Product} {t : Term} (h : p.toTerm = .ok t) (hp : p.Has P) :
    P (.term t) := by
  obtain ⟨htop, hbottom⟩ := List.forall_mem_append.mp hp
  unfold toTerm at h
  split at h
  · obtain rfl := Except.ok.inj h
    exact Term.ofValue_inherits hP _
  · obtain ⟨⟨m, d⟩, -, h⟩ := bind_eq_ok.mp h
    exact Term.of_inherits hP h htop hbottom

end Product

namespace Term

variable {steps : Nat}

theorem simplifyBy_inherits {t u : Term} (h : t.simplifyBy steps canonical = .ok u)
    (ht : P (.term t)) : P (.term u) := by
  unfold simplifyBy at h
  split at h
  · obtain rfl := Except.ok.inj h
    exact ofValue_inherits hP _
  · obtain ⟨p, hp, h⟩ := bind_eq_ok.mp h
    obtain ⟨p', hp', h⟩ := bind_eq_ok.mp h
    refine Product.toTerm_inherits hP h (Product.cancel_inherits hP hcanonical hp' ?_)
    exact Product.run_inherits hP hcanonical hp (by simp [Product.Has])
      (Product.forall_mem_items (R := fun f => P (.power f)) (hP.of_term ht))

theorem combine_inherits {combined combined' : List Term} {t : Term}
    (h : combine steps canonical combined t = .ok combined')
    (hcombined : ∀ s ∈ combined, P (.term s)) (ht : P (.term t)) :
    ∀ s ∈ combined', P (.term s) := by
  induction combined generalizing combined' with
  | nil =>
    obtain rfl := Except.ok.inj h
    exact List.forall_mem_singleton.mpr ht
  | cons other rest ih =>
    obtain ⟨hother, hrest⟩ := List.forall_mem_cons.mp hcombined
    rcases combine_cons_cases h with ⟨-, sum, u, total, hsum, hu, htotal, hcases⟩ |
      ⟨-, rest', hrest', rfl⟩
    · have hu := Tree.toTerm_inherits hP hu (add_inherits hP hsum hother ht)
      have htotal := simplifyBy_inherits hP hcanonical htotal hu
      rcases hcases with ⟨-, rfl⟩ | ⟨-, rfl⟩
      · exact hrest
      · exact List.forall_mem_cons.mpr ⟨htotal, hrest⟩
    · exact List.forall_mem_cons.mpr ⟨hother, ih hrest' hrest⟩

theorem combineStep_inherits {combined combined' more : List Term} {t : Term}
    (h : combineStep steps canonical combined t = .ok (combined', more))
    (hcombined : ∀ s ∈ combined, P (.term s)) (ht : P (.term t)) :
    (∀ s ∈ combined', P (.term s)) ∧ ∀ s ∈ more, P (.term s) := by
  obtain ⟨u, c, hu, hc, hcases⟩ := combineStep_cases h
  have hu := simplifyBy_inherits hP hcanonical hu ht
  rcases hcases with ⟨rfl, rfl⟩ | ⟨-, rfl, ⟨-, rfl⟩ | ⟨-, hcombine⟩⟩
  · exact ⟨hcombined, hP.of_sum (u.reduce_inherits hP hc hu)⟩
  · exact ⟨hcombined, by simp⟩
  · exact ⟨combine_inherits hP hcanonical hcombine hcombined hu, by simp⟩

theorem combineAll_inherits {k : Nat} {combined pending combined' : List Term}
    (h : combineAll steps canonical k combined pending = .ok combined')
    (hcombined : ∀ s ∈ combined, P (.term s)) (hpending : ∀ s ∈ pending, P (.term s)) :
    ∀ s ∈ combined', P (.term s) :=
  combineAll_keeps (P := fun combined => ∀ s ∈ combined, P (.term s)) (R := fun t => P (.term t))
    (combineStep_inherits hP hcanonical) h hcombined hpending

theorem simplifySumBy_inherits {ts us : List Term} (h : simplifySumBy steps canonical ts = .ok us)
    (hts : ∀ t ∈ ts, P (.term t)) : P (.sum us) := by
  obtain ⟨combined, hcombined, h⟩ := bind_eq_ok.mp h
  obtain ⟨nonzero, hnonzero, h⟩ := bind_eq_ok.mp h
  have hcombined := combineAll_inherits hP hcanonical hcombined (by simp) hts
  exact summed_inherits hP h fun t ht => hcombined t (mem_of_mem_filterM hnonzero ht)

end Term

theorem Tree.simplifyBy_inherits {steps : Nat} :
    Inherits P fun t => t.simplifyBy steps canonical := by
  intro t c h ht
  cases t with
  | term t =>
    obtain ⟨u, hu, rfl⟩ := map_eq_ok.mp h
    exact Term.simplifyBy_inherits hP hcanonical hu ht
  | sum ts =>
    obtain ⟨us, hus, rfl⟩ := map_eq_ok.mp h
    exact Term.simplifySumBy_inherits hP hcanonical hus (hP.of_sum ht)
  | power f =>
    obtain ⟨g, hg, h⟩ := bind_eq_ok.mp h
    have hg := Factor.normalize_inherits hP hcanonical hg ht
    obtain ⟨value?, -, h⟩ := bind_eq_ok.mp h
    cases value? with
    | some v =>
      obtain rfl := Except.ok.inj h
      exact hP.number v
    | none =>
      obtain ⟨t, ht, h⟩ := bind_eq_ok.mp h
      obtain ⟨u, hu, h⟩ := bind_eq_ok.mp h
      obtain rfl := Except.ok.inj h
      exact Term.simplifyBy_inherits hP hcanonical hu (Term.ofFactor_inherits hP ht hg)
  | call f args =>
    obtain ⟨args', hargs', rfl⟩ := map_eq_ok.mp h
    refine hP.call ht (length_mapM hargs') fun a' ha' => ?_
    obtain ⟨a, ha, haa'⟩ := mem_mapM hargs' ha'
    exact hcanonical haa' (hP.of_call ht a ha)
  | _ =>
    obtain rfl := Except.ok.inj h
    exact ht

end

theorem Tree.canonicalWith_inherits (n : Nat) : Inherits P (canonicalWith n) := by
  induction n with
  | zero =>
    intro t c h
    cases h
  | succ n ih =>
    intro t c h ht
    obtain ⟨s, hs, h⟩ := bind_eq_ok.mp h
    exact s.reduce_inherits hP h (simplifyBy_inherits hP ih hs ht)

theorem Tree.simplifyWith_inherits {n : Nat} {t s : Tree} (h : t.simplifyWith n = .ok s)
    (ht : P t) : P s := by
  cases n with
  | zero => cases h
  | succ n => exact simplifyBy_inherits hP (canonicalWith_inherits hP n) h ht

end

variable {n : Nat}

mutual

theorem Tree.pieces_inherit (hP : Tree.Compositional P) :
    (t : Tree) → {ps : List Tree} → t.pieces = .ok ps → P t → ∀ p ∈ ps, P p
  | .power f, ps, h, ht => f.pieces_inherit hP h ht
  | .term t, ps, h, ht => t.unwrappedPieces_inherit hP h ht
  | .sum [t], ps, h, ht => t.unwrappedPieces_inherit hP h (hP.of_sum ht t List.mem_cons_self)
  | .number _, ps, h, ht | .constant _, ps, h, ht | .variable _, ps, h, ht
  | .sum [], ps, h, ht | .sum (_ :: _ :: _), ps, h, ht | .call _ _, ps, h, ht => by
    obtain rfl := Except.ok.inj h
    exact List.forall_mem_singleton.mpr ht

theorem Factor.pieces_inherit (hP : Tree.Compositional P) :
    (f : Factor) → {ps : List Tree} → f.pieces = .ok ps → P (.power f) → ∀ p ∈ ps, P p
  | ⟨base, exponent⟩, ps, h, hf => by
    obtain ⟨one, -, h⟩ := bind_eq_ok.mp h
    cases one with
    | true => exact base.pieces_inherit hP h (hP.power_iff.mp hf).1
    | false =>
      obtain rfl := Except.ok.inj h
      exact List.forall_mem_singleton.mpr hf

theorem Term.unwrappedPieces_inherit (hP : Tree.Compositional P) :
    (t : Term) → {ps : List Tree} → t.unwrappedPieces = .ok ps → P (.term t) → ∀ p ∈ ps, P p
  | ⟨multiplier, divisor, [⟨base, exponent⟩], bottom⟩, ps, h, ht => by
    have hf := Term.top_inherits hP ht ⟨base, exponent⟩ List.mem_cons_self
    obtain ⟨whole, -, h⟩ := bind_eq_ok.mp h
    cases whole with
    | false =>
      obtain rfl := Except.ok.inj h
      exact List.forall_mem_singleton.mpr ht
    | true =>
      obtain ⟨one, -, h⟩ := bind_eq_ok.mp h
      cases one with
      | true =>
        obtain rfl := Except.ok.inj h
        exact List.forall_mem_singleton.mpr (hP.number _)
      | false =>
        have hfactored : (do return .number multiplier :: (← Factor.pieces ⟨base, exponent⟩) :
            Except Fault (List Tree)) = .ok ps → ∀ p ∈ ps, P p := by
          intro h
          obtain ⟨ps', hps', h⟩ := bind_eq_ok.mp h
          obtain rfl := Except.ok.inj h
          exact List.forall_mem_cons.mpr
            ⟨hP.number _, Factor.pieces_inherit hP ⟨base, exponent⟩ hps' hf⟩
        simp only [Bool.false_eq_true, if_false] at h
        split at h
        · obtain ⟨first, -, h⟩ := bind_eq_ok.mp h
          cases first with
          | true => exact base.pieces_inherit hP h (hP.power_iff.mp hf).1
          | false => exact hfactored h
        · exact hfactored h
  | ⟨_, _, [], _⟩, ps, h, ht => by
    obtain ⟨whole, -, h⟩ := bind_eq_ok.mp h
    cases whole with
    | false =>
      obtain rfl := Except.ok.inj h
      exact List.forall_mem_singleton.mpr ht
    | true =>
      obtain rfl := Except.ok.inj h
      exact List.forall_mem_singleton.mpr (hP.number _)
  | ⟨_, _, f :: g :: top, _⟩, ps, h, ht => by
    rw [Term.unwrappedPieces] at h
    · obtain ⟨whole, -, h⟩ := bind_eq_ok.mp h
      cases whole with
      | false =>
        obtain rfl := Except.ok.inj h
        exact List.forall_mem_singleton.mpr ht
      | true =>
        obtain ⟨ps', hps', h⟩ := bind_eq_ok.mp h
        obtain rfl := Except.ok.inj h
        exact List.forall_mem_cons.mpr ⟨hP.number _,
          Factor.piecesOfAll_inherit hP (f :: g :: top) hps' (Term.top_inherits hP ht)⟩
    · simp

theorem Factor.piecesOfAll_inherit (hP : Tree.Compositional P) :
    (fs : List Factor) → {ps : List Tree} → Factor.piecesOfAll fs = .ok ps →
    (∀ f ∈ fs, P (.power f)) → ∀ p ∈ ps, P p
  | [], ps, h, _ => by
    obtain rfl := Except.ok.inj h
    simp
  | f :: rest, ps, h, hfs => by
    obtain ⟨hf, hrest⟩ := List.forall_mem_cons.mp hfs
    obtain ⟨ps₁, hps₁, h⟩ := bind_eq_ok.mp h
    obtain ⟨ps₂, hps₂, h⟩ := bind_eq_ok.mp h
    obtain rfl := Except.ok.inj h
    exact List.forall_mem_append.mpr
      ⟨f.pieces_inherit hP hps₁ hf, Factor.piecesOfAll_inherit hP rest hps₂ hrest⟩

end

namespace Term

variable (hP : Tree.Compositional P) {ss ts us : List Term}
include hP

theorem multiplyAll_inherits {t : Tree} (h : multiplyAll ss t = .ok us)
    (hss : ∀ s ∈ ss, P (.term s)) (ht : P t) : P (.sum us) := by
  obtain ⟨products, hproducts, h⟩ := bind_eq_ok.mp h
  refine summed_inherits hP h fun u hu => ?_
  obtain ⟨s, hs, hst⟩ := mem_mapM hproducts hu
  exact times_inherits hP hst (hss s hs) ht

theorem products_inherit (h : products ss ts = .ok us) (hss : ∀ s ∈ ss, P (.term s))
    (hts : ∀ t ∈ ts, P (.term t)) : ∀ u ∈ us, P (.term u) := by
  intro u hu
  obtain ⟨⟨s, t⟩, hst, hmul⟩ := mem_mapM h hu
  obtain ⟨s', hs, hst⟩ := List.mem_flatMap.mp hst
  obtain ⟨t', ht, hst⟩ := List.mem_map.mp hst
  obtain ⟨rfl, rfl⟩ := Prod.mk.inj hst
  exact mul_inherits hP hmul (hss _ hs) (hts _ ht)

theorem multiplyOut_inherits (h : multiplyOut n ss ts = .ok us) (hss : ∀ s ∈ ss, P (.term s))
    (hts : ∀ t ∈ ts, P (.term t)) : P (.sum us) := by
  obtain ⟨terms, hterms, h⟩ := bind_eq_ok.mp h
  obtain ⟨sorted, hsorted, h⟩ := bind_eq_ok.mp h
  have hterms := products_inherit hP hterms hss hts
  exact simplifySumBy_inherits hP (Tree.canonicalWith_inherits hP n) h
    (hP.of_sum (summed_inherits hP hsorted hterms))

theorem powerOut_inherits {k : Nat} (h : powerOut n ts k = .ok us) (hts : ∀ t ∈ ts, P (.term t)) :
    P (.sum us) := by
  induction k generalizing us with
  | zero => exact summed_inherits hP h (List.forall_mem_singleton.mpr (ofValue_inherits hP _))
  | succ k ih =>
    obtain ⟨power, hpower, h⟩ := bind_eq_ok.mp h
    exact multiplyOut_inherits hP h (hP.of_sum (ih hpower)) hts

theorem multiplyIn_inherits {t : Tree} (h : multiplyIn n ss t = .ok us)
    (hss : ∀ s ∈ ss, P (.term s)) (ht : P t) : P (.sum us) := by
  cases t with
  | sum ts => exact multiplyOut_inherits hP h hss (hP.of_sum ht)
  | _ => exact multiplyAll_inherits hP h hss ht

end Term

mutual

theorem Tree.expandWith_inherits (hP : Tree.Compositional P) :
    (t : Tree) → {c : Tree} → t.expandWith n = .ok c → P t → P c
  | .number _, c, h, ht | .constant _, c, h, ht | .variable _, c, h, ht => by
    obtain rfl := Except.ok.inj h
    exact ht
  | .power f, c, h, ht => f.expandWith_inherits hP h ht
  | .term t, c, h, ht => t.expandWith_inherits hP h ht
  | .sum ts, c, h, ht => by
    obtain ⟨us, hus, h⟩ := bind_eq_ok.mp h
    obtain ⟨ss, hss, h⟩ := bind_eq_ok.mp h
    have hus := Term.expandedSummands_inherit hP ts hus (hP.of_sum ht)
    exact Tree.canonicalWith_inherits hP n h (Term.summed_inherits hP hss hus)
  | .call f args, c, h, ht => by
    obtain ⟨args', hargs', h⟩ := bind_eq_ok.mp h
    obtain rfl := Except.ok.inj h
    obtain ⟨hlength, hall⟩ := Tree.expandAllWith_inherit hP args hargs' (hP.of_call ht)
    exact hP.call ht hlength hall

theorem Factor.expandWith_inherits (hP : Tree.Compositional P) :
    (f : Factor) → {c : Tree} → f.expandWith n = .ok c → P (.power f) → P c
  | ⟨base, exponent⟩, c, h, hf => by
    obtain ⟨b, hb, h⟩ := bind_eq_ok.mp h
    obtain ⟨e, he, h⟩ := bind_eq_ok.mp h
    obtain ⟨e', he', h⟩ := bind_eq_ok.mp h
    obtain ⟨hbase, hexponent⟩ := hP.power_iff.mp hf
    have hb := base.expandWith_inherits hP hb hbase
    have he := Tree.canonicalWith_inherits hP n he' (exponent.expandWith_inherits hP he hexponent)
    have hpower : P (.power ⟨b, e'⟩) := hP.power_iff.mpr ⟨hb, he⟩
    obtain ⟨one, -, h⟩ := bind_eq_ok.mp h
    cases one with
    | true =>
      obtain rfl := Except.ok.inj h
      exact hb
    | false =>
      obtain ⟨r, hr, h⟩ := bind_eq_ok.mp h
      obtain ⟨integer?, -, h⟩ := bind_eq_ok.mp h
      have hr := b.reduce_inherits hP hr hb
      split at h
      · split at h
        · obtain ⟨us, hus, h⟩ := bind_eq_ok.mp h
          exact Tree.reduce_inherits hP _ h (Term.powerOut_inherits hP hus (hP.of_sum hr))
        · obtain rfl := Except.ok.inj h
          exact hpower
      · obtain ⟨u, hu, h⟩ := bind_eq_ok.mp h
        exact Tree.canonicalWith_inherits hP n h
          (Term.ofFactor_inherits hP hu (hP.power_iff.mpr ⟨hr, he⟩))
      · obtain rfl := Except.ok.inj h
        exact hpower

theorem Term.expandWith_inherits (hP : Tree.Compositional P) :
    (t : Term) → {c : Tree} → t.expandWith n = .ok c → P (.term t) → P c
  | ⟨multiplier, divisor, top, bottom⟩, c, h, ht => by
    obtain ⟨numerator, hnumerator, h⟩ := bind_eq_ok.mp h
    obtain ⟨denominator, hdenominator, h⟩ := bind_eq_ok.mp h
    obtain ⟨r, hr, h⟩ := bind_eq_ok.mp h
    obtain ⟨s, hs, h⟩ := bind_eq_ok.mp h
    obtain ⟨u, hu, h⟩ := bind_eq_ok.mp h
    have hstart : ∀ v : Value, P (.sum [Term.ofValue v]) := fun v =>
      hP.sum (by simp) (List.forall_mem_singleton.mpr (Term.ofValue_inherits hP v))
    have hnumerator := Factor.expandProductWith_inherits hP top hnumerator (hstart multiplier)
      (Term.top_inherits hP ht)
    have hdenominator := Factor.expandProductWith_inherits hP bottom hdenominator (hstart divisor)
      (Term.bottom_inherits hP ht)
    exact Tree.canonicalWith_inherits hP n h (Term.fraction_inherits hP hu
      (Tree.reduce_inherits hP _ hr hnumerator) (Tree.reduce_inherits hP _ hs hdenominator))

theorem Factor.expandProductWith_inherits (hP : Tree.Compositional P) :
    (fs : List Factor) → {output us : List Term} → Factor.expandProductWith n output fs = .ok us →
    P (.sum output) → (∀ f ∈ fs, P (.power f)) → P (.sum us)
  | [], output, us, h, houtput, _ => by
    obtain rfl := Except.ok.inj h
    exact houtput
  | f :: rest, output, us, h, houtput, hfs => by
    obtain ⟨hf, hrest⟩ := List.forall_mem_cons.mp hfs
    obtain ⟨t, ht, h⟩ := bind_eq_ok.mp h
    obtain ⟨pieces, hpieces, h⟩ := bind_eq_ok.mp h
    obtain ⟨output', houtput', h⟩ := bind_eq_ok.mp h
    have hpieces := t.pieces_inherit hP hpieces (f.expandWith_inherits hP ht hf)
    refine Factor.expandProductWith_inherits hP rest h ?_ hrest
    exact foldlM_keeps (P := fun us => P (.sum us)) houtput' houtput fun ss p hp us hss hus =>
      Term.multiplyIn_inherits hP hus (hP.of_sum hss) (hpieces p hp)

theorem Term.expandedSummands_inherit (hP : Tree.Compositional P) :
    (ts : List Term) → {us : List Term} → Term.expandedSummands n ts = .ok us →
    (∀ t ∈ ts, P (.term t)) → ∀ u ∈ us, P (.term u)
  | [], us, h, _ => by
    obtain rfl := Except.ok.inj h
    simp
  | t :: rest, us, h, hts => by
    obtain ⟨ht, hrest⟩ := List.forall_mem_cons.mp hts
    obtain ⟨c, hc, h⟩ := bind_eq_ok.mp h
    obtain ⟨ss, hss, h⟩ := bind_eq_ok.mp h
    obtain ⟨us', hus', h⟩ := bind_eq_ok.mp h
    obtain rfl := Except.ok.inj h
    exact List.forall_mem_append.mpr
      ⟨Tree.summands_inherit hP hss (t.expandWith_inherits hP hc ht),
        Term.expandedSummands_inherit hP rest hus' hrest⟩

theorem Tree.expandAllWith_inherit (hP : Tree.Compositional P) :
    (ts : List Tree) → {us : List Tree} → Tree.expandAllWith n ts = .ok us → (∀ t ∈ ts, P t) →
    us.length = ts.length ∧ ∀ u ∈ us, P u
  | [], us, h, _ => by
    obtain rfl := Except.ok.inj h
    simp
  | t :: rest, us, h, hts => by
    obtain ⟨ht, hrest⟩ := List.forall_mem_cons.mp hts
    obtain ⟨u, hu, h⟩ := bind_eq_ok.mp h
    obtain ⟨us', hus', h⟩ := bind_eq_ok.mp h
    obtain rfl := Except.ok.inj h
    obtain ⟨hlength, hall⟩ := Tree.expandAllWith_inherit hP rest hus' hrest
    exact ⟨congrArg (· + 1) hlength,
      List.forall_mem_cons.mpr ⟨t.expandWith_inherits hP hu ht, hall⟩⟩

end

/-- What evaluation puts in the place of a variable or a constant has the property, and a call has
it with its evaluated arguments. -/
def Tree.Supplies (P : Tree → Prop) (scope : Option Scope) : Tree → Prop
  | .variable name => P ((scope.bind (·.get? name)).getD (.variable name))
  | .constant c => scope.all (·.keepsConstants) = true → P (.constant c)
  | .call f args => ∀ args' : List Tree, args'.length = args.length → (∀ a ∈ args', P a) →
      P (.call f args')
  | _ => True

variable {scope : Option Scope}

mutual

theorem Tree.evaluateWith_inherits (hP : Tree.Compositional P) :
    (t : Tree) → {c : Tree} → t.evaluateWith n scope = .ok c → (∀ s ∈ t.nodes, s.Supplies P scope) →
    P c
  | .number v, c, h, _ => by
    obtain rfl := Except.ok.inj h
    exact hP.number v
  | .constant k, c, h, ht => by
    have hk := ht _ List.mem_cons_self
    simp only [Tree.evaluateWith] at h
    split at h
    · next hkeeps =>
      obtain rfl := Except.ok.inj h
      exact hk hkeeps
    · obtain rfl := Except.ok.inj h
      exact hP.number _
  | .variable name, c, h, ht => by
    have hname := ht _ List.mem_cons_self
    simp only [Tree.evaluateWith] at h
    simp only [Tree.Supplies] at hname
    split at h
    · next u hu =>
      obtain rfl := Except.ok.inj h
      rwa [hu] at hname
    · next hu =>
      obtain rfl := Except.ok.inj h
      rwa [hu] at hname
  | .power f, c, h, ht => f.evaluateWith_inherits hP h ht
  | .term t, c, h, ht => t.evaluateWith_inherits hP h ht
  | .sum ts, c, h, ht => by
    obtain ⟨us, hus, h⟩ := bind_eq_ok.mp h
    obtain ⟨ss, hss, h⟩ := bind_eq_ok.mp h
    have hus := Term.evaluateAllWith_inherit hP ts hus (List.forall_mem_cons.mp ht).2
    exact Tree.canonicalWith_inherits hP n h (Term.summed_inherits hP hss hus)
  | .call f args, c, h, ht => by
    obtain ⟨hcall, hargs⟩ := List.forall_mem_cons.mp ht
    obtain ⟨args', hargs', h⟩ := bind_eq_ok.mp h
    obtain ⟨hlength, hall⟩ := Tree.evaluateAllWith_inherit hP args hargs' hargs
    have hkept := hcall args' hlength hall
    obtain ⟨values, -, h⟩ := bind_eq_ok.mp h
    split at h
    · split at h
      · obtain ⟨v, -, rfl⟩ := map_eq_ok.mp h
        exact hP.number v
      · obtain rfl := Except.ok.inj h
        exact hkept
    · obtain rfl := Except.ok.inj h
      exact hkept

theorem Factor.evaluateWith_inherits (hP : Tree.Compositional P) :
    (f : Factor) → {c : Tree} → f.evaluateWith n scope = .ok c →
    (∀ s ∈ f.nodes, s.Supplies P scope) → P c
  | ⟨base, exponent⟩, c, h, hf => by
    obtain ⟨hbase, hexponent⟩ := List.forall_mem_append.mp (List.forall_mem_cons.mp hf).2
    obtain ⟨b, hb, h⟩ := bind_eq_ok.mp h
    obtain ⟨e, he, h⟩ := bind_eq_ok.mp h
    obtain ⟨b?, -, h⟩ := bind_eq_ok.mp h
    obtain ⟨e?, -, h⟩ := bind_eq_ok.mp h
    split at h
    · obtain ⟨v, -, rfl⟩ := map_eq_ok.mp h
      exact hP.number v
    · obtain rfl := Except.ok.inj h
      exact hP.power_iff.mpr
        ⟨base.evaluateWith_inherits hP hb hbase, exponent.evaluateWith_inherits hP he hexponent⟩

theorem Term.evaluateWith_inherits (hP : Tree.Compositional P) :
    (t : Term) → {c : Tree} → t.evaluateWith n scope = .ok c → (∀ s ∈ t.nodes, s.Supplies P scope) →
    P c
  | ⟨multiplier, divisor, top, bottom⟩, c, h, ht => by
    obtain ⟨htop, hbottom⟩ := List.forall_mem_append.mp (List.forall_mem_cons.mp ht).2
    unfold Term.evaluateWith at h
    split at h
    · obtain rfl := Except.ok.inj h
      exact hP.number _
    split at h
    · obtain rfl := Except.ok.inj h
      exact hP.number _
    obtain ⟨tops, htops, h⟩ := bind_eq_ok.mp h
    obtain ⟨bottoms, hbottoms, h⟩ := bind_eq_ok.mp h
    obtain ⟨rebuilt, hrebuilt, h⟩ := bind_eq_ok.mp h
    have hfactors : ∀ ts : List Tree, (∀ t ∈ ts, P t) →
        ∀ f ∈ ts.map Tree.toFactor, P (.power f) := by
      intro ts hts f hf
      obtain ⟨t, ht, rfl⟩ := List.mem_map.mp hf
      exact Tree.toFactor_inherits hP (hts t ht)
    have hrebuilt := Term.of_inherits hP hrebuilt
      (hfactors tops (Factor.evaluateAllWith_inherit hP top htops htop))
      (hfactors bottoms (Factor.evaluateAllWith_inherit hP bottom hbottoms hbottom))
    split at h
    · obtain rfl := Except.ok.inj h
      exact hP.number _
    obtain ⟨r, hr, h⟩ := bind_eq_ok.mp h
    have hr := Tree.canonicalWith_inherits hP n hr hrebuilt
    split at h
    · split at h
      · obtain rfl := Except.ok.inj h
        exact hP.number _
      · obtain rfl := Except.ok.inj h
        exact hr
    · obtain rfl := Except.ok.inj h
      exact hr

theorem Factor.evaluateAllWith_inherit (hP : Tree.Compositional P) :
    (fs : List Factor) → {ts : List Tree} → Factor.evaluateAllWith n scope fs = .ok ts →
    (∀ s ∈ Factor.nodesOfAll fs, s.Supplies P scope) → ∀ t ∈ ts, P t
  | [], ts, h, _ => by
    obtain rfl := Except.ok.inj h
    simp
  | f :: rest, ts, h, hfs => by
    obtain ⟨hf, hrest⟩ := List.forall_mem_append.mp hfs
    obtain ⟨t, ht, h⟩ := bind_eq_ok.mp h
    obtain ⟨ts', hts', h⟩ := bind_eq_ok.mp h
    obtain rfl := Except.ok.inj h
    exact List.forall_mem_cons.mpr
      ⟨f.evaluateWith_inherits hP ht hf, Factor.evaluateAllWith_inherit hP rest hts' hrest⟩

theorem Term.evaluateAllWith_inherit (hP : Tree.Compositional P) :
    (ts : List Term) → {us : List Term} → Term.evaluateAllWith n scope ts = .ok us →
    (∀ s ∈ Term.nodesOfAll ts, s.Supplies P scope) → ∀ u ∈ us, P (.term u)
  | [], us, h, _ => by
    obtain rfl := Except.ok.inj h
    simp
  | t :: rest, us, h, hts => by
    obtain ⟨ht, hrest⟩ := List.forall_mem_append.mp hts
    obtain ⟨c, hc, h⟩ := bind_eq_ok.mp h
    obtain ⟨u, hu, h⟩ := bind_eq_ok.mp h
    obtain ⟨us', hus', h⟩ := bind_eq_ok.mp h
    obtain rfl := Except.ok.inj h
    exact List.forall_mem_cons.mpr ⟨Tree.toTerm_inherits hP hu (t.evaluateWith_inherits hP hc ht),
      Term.evaluateAllWith_inherit hP rest hus' hrest⟩

theorem Tree.evaluateAllWith_inherit (hP : Tree.Compositional P) :
    (ts : List Tree) → {us : List Tree} → Tree.evaluateAllWith n scope ts = .ok us →
    (∀ s ∈ Tree.nodesOfAll ts, s.Supplies P scope) → us.length = ts.length ∧ ∀ u ∈ us, P u
  | [], us, h, _ => by
    obtain rfl := Except.ok.inj h
    simp
  | t :: rest, us, h, hts => by
    obtain ⟨ht, hrest⟩ := List.forall_mem_append.mp hts
    obtain ⟨u, hu, h⟩ := bind_eq_ok.mp h
    obtain ⟨us', hus', h⟩ := bind_eq_ok.mp h
    obtain rfl := Except.ok.inj h
    obtain ⟨hlength, hall⟩ := Tree.evaluateAllWith_inherit hP rest hus' hrest
    exact ⟨congrArg (· + 1) hlength,
      List.forall_mem_cons.mpr ⟨t.evaluateWith_inherits hP hu ht, hall⟩⟩

end

end SymbolicAlgebra
