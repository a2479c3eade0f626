import SymbolicAlgebra.Proofs.Gathering

/-!
# Products

A product means what the term with its coefficients and powers means, and the items still to be
gathered count as factors on their side. Merging a factor and cancelling a base keep the meaning and
the balance, which is the weighted sum of the exponents on top minus that at the bottom.
-/

namespace SymbolicAlgebra

open Outcome

variable {I : Interpretation}

theorem zpow_eq_zpow_sub_mul {x : Rat} {m n : Int} (hm : x ≠ 0 ∨ 0 ≤ m) (hn : x ^ n ≠ 0) :
    (x ≠ 0 ∨ 0 ≤ m - n) ∧ x ^ m = x ^ (m - n) * x ^ n := by
  by_cases hx : x = 0
  · subst hx
    obtain rfl : n = 0 := by
      by_contra hne
      exact hn (zero_zpow n hne)
    exact ⟨by simpa using hm, by simp⟩
  · refine ⟨.inl hx, ?_⟩
    rw [← zpow_add₀ hx, Int.sub_add_cancel]

namespace Product

/-- A product as a term, whatever its powers are. -/
def asTerm (p : Product) : Term := ⟨p.multiplier, p.divisor, p.top, p.bottom⟩

def balance (w : Tree → Int) (p : Product) : Int := Factor.weight w p.top - Factor.weight w p.bottom

structure Gathered (limit : Nat) (p : Product) : Prop where
  top : Factor.Gathered limit p.top
  bottom : Factor.Gathered limit p.bottom

theorem asTerm_meaning?_eq_some {p : Product} {q : Rat} :
    p.asTerm.meaning? I = some q ↔ ∃ m d n k : Rat, p.multiplier = .exact m ∧
      p.divisor = .exact d ∧ Factor.product? I p.top = some n ∧
      Factor.product? I p.bottom = some k ∧ d ≠ 0 ∧ k ≠ 0 ∧ q = m * n / (d * k) :=
  Term.meaning?_eq_some

section
variable {canonical : Tree → Except Fault Tree}
  (hnumber : ∀ v, canonical (.number v) = .ok (.number v))
include hnumber

theorem canonicalSum_whole (m n : Int) :
    (Tree.whole m).canonicalSum canonical (.whole n) = .ok (.whole (m + n)) := by
  rw [Tree.canonicalSum, Tree.add_whole, ok_bind]
  exact hnumber _

variable {limit : Nat}

theorem merge_ok {fs : List Factor} {f : Factor} {a v : Rat} (hfs : Factor.Gathered limit fs)
    (hf : f.IsAtomPower limit) (ha : Factor.product? I fs = some a) (hv : f.meaning? I = some v) :
    ∃ gs, merge canonical fs f = .ok gs ∧ Factor.Gathered limit gs ∧
      Factor.product? I gs = some (a * v) ∧
      ∀ w, Factor.weight w gs = Factor.weight w (fs ++ [f]) := by
  obtain ⟨base, exponent⟩ := f
  obtain ⟨hatom, hnormal, hlimit, n, rfl⟩ := hf
  simp only at hatom hnormal hlimit
  obtain ⟨x, hx, hn, rfl⟩ := Factor.meaning?_whole.mp hv
  rcases Factor.exponentOf?_cases hx (Factor.exists_base_meaning_of_mem ha) with
    ⟨hnone, hmem⟩ | ⟨e, he, hperm, hset⟩
  · exact ⟨fs ++ [⟨base, .whole n⟩], by simp [merge, hnone],
      hfs.append ⟨hatom, hnormal, hlimit, n, rfl⟩ hmem, Factor.product?_append_singleton ha hv,
      fun w => rfl⟩
  · -- the base stands there with an exponent `m`, to which `n` is added
    obtain ⟨⟨-, -, -, m, hm⟩, hmem, herased⟩ := Factor.gathered_cons.mp (hfs.perm hperm)
    simp only at hm hmem
    subst hm
    rw [Factor.product?_perm hperm] at ha
    obtain ⟨y, c, hy, hc, rfl⟩ := Factor.product?_cons_eq_some.mp ha
    obtain ⟨x', hx', hm, rfl⟩ := Factor.meaning?_whole.mp hy
    obtain rfl : x' = x := Option.some.inj (hx'.symm.trans hx)
    have hsum : x' ≠ 0 ∨ 0 ≤ m + n := by
      rcases hm with hm | hm
      · exact .inl hm
      · exact hn.imp_right fun hn => by omega
    refine ⟨_, by simp [merge, he, canonicalSum_whole hnumber]; rfl, ?_, ?_, fun w => ?_⟩
    · exact (Factor.gathered_cons.mpr ⟨⟨hatom, hnormal, hlimit, m + n, rfl⟩, hmem,
        herased⟩).perm (hset _).symm
    · rw [Factor.product?_perm (hset _)]
      refine Factor.product?_cons_eq_some.mpr ⟨_, c, Factor.meaning?_whole.mpr ⟨_, hx, hsum, rfl⟩,
        hc, ?_⟩
      rw [← zpow_add_of_nonneg hm hn]
      ring
    · rw [Factor.weight_perm w (hset _), Factor.weight_append, Factor.weight_perm w hperm]
      simp only [Factor.weight, Tree.wholePart_whole]
      ring

end

/-- The second product has the meaning and the balance of the first, and no base that it has not. -/
structure CancelsTo (I : Interpretation) (p p' : Product) : Prop where
  meaning : p'.asTerm.meaning? I = p.asTerm.meaning? I
  balance : ∀ w, p'.balance w = p.balance w
  top : ∀ b ∈ p'.top.map (·.base), b ∈ p.top.map (·.base)
  bottom : ∀ b ∈ p'.bottom.map (·.base), b ∈ p.bottom.map (·.base)

theorem CancelsTo.refl (p : Product) : CancelsTo I p p :=
  ⟨rfl, fun _ => rfl, fun _ h => h, fun _ h => h⟩

theorem CancelsTo.trans {p p' p'' : Product} (h : CancelsTo I p p') (h' : CancelsTo I p' p'') :
    CancelsTo I p p'' :=
  ⟨h'.meaning.trans h.meaning, fun w => (h'.balance w).trans (h.balance w),
    fun b hb => h.top b (h'.top b hb), fun b hb => h.bottom b (h'.bottom b hb)⟩

/-- What becomes of two powers of a base on the two sides, given the difference of their exponents
and what else there is. -/
def cancelled (b : Tree) (n : Int) (p : Product) : Product :=
  if n < 0 then { p with bottom := p.bottom ++ [⟨b, .whole (-n)⟩] }
  else if n = 0 then p
  else { p with top := p.top ++ [⟨b, .whole n⟩] }

theorem cancelBase_eq {canonical : Tree → Except Fault Tree}
    (hnumber : ∀ v, canonical (.number v) = .ok (.number v)) {p : Product} {b : Tree} {m n : Int}
    (htop : Factor.exponentOf? p.top b = some (.whole m))
    (hbottom : Factor.exponentOf? p.bottom b = some (.whole n)) :
    p.cancelBase canonical b = .ok (cancelled b (m - n)
      { p with top := Factor.eraseBase b p.top, bottom := Factor.eraseBase b p.bottom }) := by
  have hneg : Value.isNegative (.exact ((m - n : Int) : Rat)) = decide (m - n < 0) := by
    rw [Value.isNegative_exact, decide_eq_decide]
    exact_mod_cast Iff.rfl
  have hcanonical : canonical (.whole (-(m - n))) = .ok (.whole (-(m - n))) := hnumber _
  simp only [cancelBase, htop, hbottom, Tree.negate_whole, ok_bind, canonicalSum_whole hnumber,
    Tree.plainValue?_whole, Tree.isZero_whole, ← Int.sub_eq_add_neg, Option.any_some, hneg,
    hcanonical, cancelled, decide_eq_true_eq, pure_eq_ok]
  split
  · rfl
  · split <;> rfl

theorem cancelled_meaning {p : Product} {b : Tree} {m n : Int} {c d a k x : Rat}
    (hc : p.multiplier = .exact c) (hd : p.divisor = .exact d)
    (ha : Factor.product? I p.top = some a) (hk : Factor.product? I p.bottom = some k) (hd0 : d ≠ 0)
    (hk0 : k ≠ 0) (hx : b.meaning? I = some x) (hm : x ≠ 0 ∨ 0 ≤ m) (hn : x ^ n ≠ 0) :
    (cancelled b (m - n) p).asTerm.meaning? I = some (c * (x ^ m * a) / (d * (x ^ n * k))) := by
  obtain ⟨hsign, hsub⟩ := zpow_eq_zpow_sub_mul hm hn
  unfold cancelled
  split_ifs with hneg hzero
  · -- the power at the bottom is the higher one, so the base is not zero
    have hx0 : x ≠ 0 := hsign.resolve_right (not_le.mpr hneg)
    have hv : (⟨b, .whole (-(m - n))⟩ : Factor).meaning? I = some (x ^ (-(m - n))) :=
      Factor.meaning?_whole.mpr ⟨x, hx, .inl hx0, rfl⟩
    refine asTerm_meaning?_eq_some.mpr ⟨c, d, a, _, hc, hd, ha,
      Factor.product?_append_singleton hk hv, hd0, mul_ne_zero hk0 (zpow_ne_zero _ hx0), ?_⟩
    have hpow : x ^ (m - n) ≠ 0 := zpow_ne_zero _ hx0
    rw [hsub, zpow_neg]
    field_simp
  · refine asTerm_meaning?_eq_some.mpr ⟨c, d, a, k, hc, hd, ha, hk, hd0, hk0, ?_⟩
    obtain rfl : m = n := by omega
    field_simp
  · have hv : (⟨b, .whole (m - n)⟩ : Factor).meaning? I = some (x ^ (m - n)) :=
      Factor.meaning?_whole.mpr ⟨x, hx, hsign, rfl⟩
    refine asTerm_meaning?_eq_some.mpr ⟨c, d, _, k, hc, hd,
      Factor.product?_append_singleton ha hv, hk, hd0, hk0, ?_⟩
    rw [hsub]
    field_simp

theorem cancelled_balance (w : Tree → Int) (b : Tree) (n : Int) (p : Product) :
    (cancelled b n p).balance w = p.balance w + n * w b := by
  unfold cancelled
  split_ifs with hneg hzero
  · simp only [balance, Factor.weight_append, Factor.weight, Tree.wholePart_whole]
    ring
  · rw [hzero]
    ring
  · simp only [balance, Factor.weight_append, Factor.weight, Tree.wholePart_whole]
    ring

theorem cancelled_bases (b : Tree) (n : Int) (p : Product) :
    (cancelled b n p).top.map (·.base) = p.top.map (·.base) ∧
        (cancelled b n p).bottom.map (·.base) ⊆ b :: p.bottom.map (·.base) ∨
      (cancelled b n p).top.map (·.base) ⊆ b :: p.top.map (·.base) ∧
        (cancelled b n p).bottom.map (·.base) = p.bottom.map (·.base) := by
  unfold cancelled
  split_ifs
  · exact .inl ⟨rfl, by simp⟩
  · exact .inl ⟨rfl, List.subset_cons_self _ _⟩
  · exact .inr ⟨by simp, rfl⟩

theorem Gathered.cancelled {limit : Nat} {p : Product} {b e : Tree} {n : Int}
    (hp : p.Gathered limit) (hb : (⟨b, e⟩ : Factor).IsAtomPower limit) (htop : b ∉ p.top.map (·.base))
    (hbottom : b ∉ p.bottom.map (·.base)) : (cancelled b n p).Gathered limit := by
  obtain ⟨hatom, hnormal, hlimit, -⟩ := hb
  unfold Product.cancelled
  split_ifs
  · exact ⟨hp.top, hp.bottom.append ⟨hatom, hnormal, hlimit, _, rfl⟩ hbottom⟩
  · exact hp
  · exact ⟨hp.top.append ⟨hatom, hnormal, hlimit, _, rfl⟩ htop, hp.bottom⟩

theorem cancelled_ok {limit : Nat} {p : Product} {b : Tree} {m n : Int} {q : Rat}
    {top bottom : List Factor} (hp : p.Gathered limit)
    (htop : p.top.Perm (⟨b, .whole m⟩ :: top)) (hbottom : p.bottom.Perm (⟨b, .whole n⟩ :: bottom))
    (hq : p.asTerm.meaning? I = some q) :
    let p' := cancelled b (m - n) { p with top := top, bottom := bottom }
    CancelsTo I p p' ∧ p'.Gathered limit ∧ (b ∉ p'.top.map (·.base) ∨ b ∉ p'.bottom.map (·.base)) := by
  intro p'
  obtain ⟨hatom, hmem, hrest⟩ := Factor.gathered_cons.mp (hp.top.perm htop)
  obtain ⟨-, hmem', hrest'⟩ := Factor.gathered_cons.mp (hp.bottom.perm hbottom)
  have hmeaning : p'.asTerm.meaning? I = p.asTerm.meaning? I := by
    obtain ⟨c, d, a, k, hc, hd, ha, hk, hd0, hk0, rfl⟩ := asTerm_meaning?_eq_some.mp hq
    obtain ⟨y, a, hy, ha', rfl⟩ :=
      Factor.product?_cons_eq_some.mp ((Factor.product?_perm htop).symm.trans ha)
    obtain ⟨z, k, hz, hk', rfl⟩ :=
      Factor.product?_cons_eq_some.mp ((Factor.product?_perm hbottom).symm.trans hk)
    obtain ⟨x, hx, hm, rfl⟩ := Factor.meaning?_whole.mp hy
    obtain ⟨x', hx', hn, rfl⟩ := Factor.meaning?_whole.mp hz
    obtain rfl : x' = x := Option.some.inj (hx'.symm.trans hx)
    obtain ⟨hpow0, hk0⟩ := mul_ne_zero_iff.mp hk0
    have hrest := cancelled_meaning (p := { p with top := top, bottom := bottom }) hc hd ha' hk' hd0 hk0
      hx hm hpow0
    exact hrest.trans hq.symm
  have hbalance : ∀ w, p'.balance w = p.balance w := by
    intro w
    rw [cancelled_balance]
    simp only [balance, Factor.weight_perm w htop, Factor.weight_perm w hbottom, Factor.weight,
      Tree.wholePart_whole]
    ring
  have htops : ∀ e, e ∈ p.top.map (·.base) ↔ e ∈ b :: top.map (·.base) :=
    fun e => (htop.map (·.base)).mem_iff
  have hbottoms : ∀ e, e ∈ p.bottom.map (·.base) ↔ e ∈ b :: bottom.map (·.base) :=
    fun e => (hbottom.map (·.base)).mem_iff
  have hgathered : p'.Gathered limit := Gathered.cancelled ⟨hrest, hrest'⟩ hatom hmem hmem'
  rcases cancelled_bases b (m - n) { p with top := top, bottom := bottom } with
    ⟨hsame, hsub⟩ | ⟨hsub, hsame⟩
  · refine ⟨⟨hmeaning, hbalance, fun e he => (htops e).mpr ?_, fun e he => (hbottoms e).mpr (hsub he)⟩,
      hgathered, .inl (hsame ▸ hmem)⟩
    exact List.mem_cons_of_mem _ (hsame ▸ he)
  · refine ⟨⟨hmeaning, hbalance, fun e he => (htops e).mpr (hsub he), fun e he => (hbottoms e).mpr ?_⟩,
      hgathered, .inr (hsame ▸ hmem')⟩
    exact List.mem_cons_of_mem _ (hsame ▸ he)

section
variable {canonical : Tree → Except Fault Tree} {limit : Nat}
  (hnumber : ∀ v, canonical (.number v) = .ok (.number v))
include hnumber

theorem cancelBase_ok {p : Product} {b : Tree} {q x : Rat} (hb : b.meaning? I = some x)
    (hp : p.Gathered limit) (hq : p.asTerm.meaning? I = some q) :
    ∃ p', p.cancelBase canonical b = .ok p' ∧ CancelsTo I p p' ∧ p'.Gathered limit ∧
      (b ∉ p'.top.map (·.base) ∨ b ∉ p'.bottom.map (·.base)) := by
  obtain ⟨_, _, _, _, _, _, ha, hk, _⟩ := asTerm_meaning?_eq_some.mp hq
  rcases Factor.exponentOf?_cases hb (Factor.exists_base_meaning_of_mem ha) with
    ⟨hnone, hmem⟩ | ⟨e, he, htop, -⟩
  · exact ⟨p, by simp [cancelBase, hnone], .refl p, hp, .inl hmem⟩
  rcases Factor.exponentOf?_cases hb (Factor.exists_base_meaning_of_mem hk) with
    ⟨hnone, hmem⟩ | ⟨e', he', hbottom, -⟩
  · exact ⟨p, by simp [cancelBase, hnone], .refl p, hp, .inr hmem⟩
  obtain ⟨m, rfl⟩ := (Factor.gathered_cons.mp (hp.top.perm htop)).1.2.2.2
  obtain ⟨n, rfl⟩ := (Factor.gathered_cons.mp (hp.bottom.perm hbottom)).1.2.2.2
  exact ⟨_, cancelBase_eq hnumber he he', cancelled_ok hp htop hbottom hq⟩

theorem foldlM_cancelBase_ok (fs : List Factor) {p : Product} {q : Rat}
    (hfs : ∀ f ∈ fs, ∃ x, f.base.meaning? I = some x) (hp : p.Gathered limit)
    (hq : p.asTerm.meaning? I = some q)
    (hboth : ∀ b ∈ p.top.map (·.base), b ∈ p.bottom.map (·.base) → b ∈ fs.map (·.base)) :
    ∃ p', fs.foldlM (fun p f => p.cancelBase canonical f.base) p = .ok p' ∧ CancelsTo I p p' ∧
      p'.Gathered limit ∧ (p'.top.map (·.base)).Disjoint (p'.bottom.map (·.base)) := by
  induction fs generalizing p with
  | nil => exact ⟨p, rfl, .refl p, hp, fun b hb hb' => List.not_mem_nil (hboth b hb hb')⟩
  | cons f fs ih =>
    obtain ⟨⟨x, hx⟩, hfs⟩ := List.forall_mem_cons.mp hfs
    obtain ⟨p', hp', hcancels, hgathered, hmem⟩ := cancelBase_ok hnumber hx hp hq
    obtain ⟨p'', hp'', hcancels', hgathered', hdisjoint⟩ :=
      ih hfs hgathered (hcancels.meaning.trans hq) fun b hb hb' => by
        rcases List.mem_cons.mp (hboth b (hcancels.top b hb) (hcancels.bottom b hb')) with rfl | h
        · exact (hmem.elim (absurd hb) (absurd hb'))
        · exact h
    exact ⟨p'', by simp [List.foldlM, hp', hp''], hcancels.trans hcancels', hgathered', hdisjoint⟩

theorem cancel_ok {p : Product} {q : Rat} (hp : p.Gathered limit)
    (hq : p.asTerm.meaning? I = some q) :
    ∃ p', p.cancel canonical = .ok p' ∧ CancelsTo I p p' ∧ p'.Gathered limit ∧
      (p'.top.map (·.base)).Disjoint (p'.bottom.map (·.base)) := by
  obtain ⟨_, _, _, _, _, _, ha, hk, _⟩ := asTerm_meaning?_eq_some.mp hq
  have hmeaning := Factor.exists_base_meaning_of_mem ha
  apply foldlM_cancelBase_ok hnumber _ (fun f hf => hmeaning f (List.mem_of_mem_filter hf)) hp hq
  intro b hb hb'
  obtain ⟨f, hf, rfl⟩ := List.mem_map.mp hb
  obtain ⟨x, hx⟩ := hmeaning f hf
  rcases Factor.exponentOf?_cases hx (Factor.exists_base_meaning_of_mem hk) with
    ⟨-, hmem⟩ | ⟨e, he, -⟩
  · exact absurd hb' hmem
  · exact List.mem_map.mpr ⟨f, List.mem_filter.mpr ⟨hf, by simp [he]⟩, rfl⟩

end

end Product

end SymbolicAlgebra
