import SymbolicAlgebra.Proofs.Product

/-!
# Canonical forms and their tally

`Canonizes` is what simplification needs of the function that brings the trees within to canonical
form. The tally of a tree is what it contributes to the balance of a product when its canonical form
is gathered: that of an atom is a given weight, and that of a term is made up of the tallies of the
bases in it. It is bounded by the degree of the tree whenever the weights are.
-/

namespace SymbolicAlgebra

variable {I : Interpretation}

/-- The first tree is tidy, means what the second one means and is no larger. -/
structure Tree.IsFormOf (I : Interpretation) (least : Nat) (c t : Tree) : Prop where
  meaning : c.meaning? I = t.meaning? I
  tidy : c.IsTidy
  degree_le : c.degree 1 ≤ t.degree least
  effort_le : c.effort ≤ t.effort

theorem Tree.IsFormOf.normal {least : Nat} {c t : Tree} (h : c.IsFormOf I least t) : c.Normal :=
  h.tidy.normal

/-- The function leaves numbers alone and brings every fitting tree with a meaning to a form of it,
up to a bound on the effort. -/
structure Canonizes (I : Interpretation) (width limit : Nat)
    (canonical : Tree → Except Fault Tree) : Prop where
  number : ∀ v, canonical (.number v) = .ok (.number v)
  tree : ∀ {least : Nat} {t : Tree} {q : Rat}, t.Fits least width → t.effort ≤ limit →
    t.meaning? I = some q → ∃ c, canonical t = .ok c ∧ c.IsFormOf I least t
  width_ge : Value.maxExactExponent + 2 ≤ width

theorem Term.base_effort_lt {t : Term} {f : Factor} (h : f ∈ t.top ++ t.bottom) :
    f.base.effort < t.effort := by
  obtain ⟨n, hn⟩ : ∃ n, t.effort = 1 + n := ⟨_, t.effort_eq⟩
  have hle := (Term.effort_le_iff.mp hn.le).2 f h
  omega

theorem Term.exists_base_meaning {t : Term} {q : Rat} (h : t.meaning? I = some q) :
    ∀ f ∈ t.top ++ t.bottom, ∃ x, f.base.meaning? I = some x := by
  obtain ⟨_, _, _, _, _, _, htop, hbottom, _⟩ := Term.meaning?_eq_some.mp h
  intro f hf
  rcases List.mem_append.mp hf with hf | hf
  · exact Factor.exists_base_meaning_of_mem htop f hf
  · exact Factor.exists_base_meaning_of_mem hbottom f hf

theorem Tree.Fits.base {least width : Nat} {t : Term} (h : (Tree.term t).Fits least width) :
    ∀ f ∈ t.top ++ t.bottom, f.base.Fits least width := by
  intro f hf
  obtain ⟨base, exponent⟩ := f
  exact (Tree.fits_power.mp ((Tree.fits_term.mp h).2.2 _ hf)).2.2

/-- The tally of a tree, given the weights of atoms and the tallies of the bases in a term. -/
def Tree.tallyBy (u w : Tree → Int) : Tree → Int
  | .number _ => 0
  | .term t => Factor.weight w t.top - Factor.weight w t.bottom
  | t => u t

def Tree.tally (canonical : Tree → Except Fault Tree) (u : Tree → Int) (t : Tree) : Int :=
  match canonical t with
  | .ok c => c.tallyBy u fun s => if _h : s.effort < t.effort then s.tally canonical u else 0
  | .error _ => 0
termination_by t.effort

namespace Tree

variable {canonical : Tree → Except Fault Tree} {u : Tree → Int}

theorem tally_eq {t c : Tree} (hc : canonical t = .ok c) (heffort : c.effort ≤ t.effort) :
    t.tally canonical u = c.tallyBy u (·.tally canonical u) := by
  rw [tally, hc]
  cases c with
  | term s =>
    have hlt : ∀ f ∈ s.top ++ s.bottom, f.base.effort < t.effort :=
      fun f hf => (Term.base_effort_lt hf).trans_le heffort
    have hcongr : ∀ fs : List Factor, (∀ f ∈ fs, f ∈ s.top ++ s.bottom) →
        Factor.weight (fun s => if _h : s.effort < t.effort then s.tally canonical u else 0) fs =
          Factor.weight (·.tally canonical u) fs :=
      fun fs hfs => Factor.weight_congr fun f hf => dif_pos (hlt f (hfs f hf))
    simp only [tallyBy, hcongr s.top fun f hf => List.mem_append_left _ hf,
      hcongr s.bottom fun f hf => List.mem_append_right _ hf]
  | _ => rfl

theorem IsAtom.tallyBy {c : Tree} (h : c.IsAtom) (w : Tree → Int) : c.tallyBy u w = u c := by
  cases c with
  | number _ | power _ | term _ => exact h.elim
  | _ => rfl

theorem natAbs_tally_le {width limit : Nat} (hcanonical : Canonizes I width limit canonical)
    (hu : ∀ b, (u b).natAbs ≤ b.degree 1) {least : Nat} {t : Tree} {q : Rat}
    (hfits : t.Fits least width) (hlimit : t.effort ≤ limit) (hq : t.meaning? I = some q) :
    (t.tally canonical u).natAbs ≤ t.degree least := by
  induction he : t.effort using Nat.strong_induction_on generalizing t least q with
  | h e ih =>
    obtain ⟨c, hc, hform⟩ := hcanonical.tree hfits hlimit hq
    rw [tally_eq hc hform.effort_le]
    refine le_trans ?_ hform.degree_le
    cases c with
    | number v => simp [tallyBy]
    | power f => exact hform.normal.elim
    | term s =>
      have hdegree : s.degree 1 ≤ Value.maxExactExponent := hform.degree_le.trans hfits.degree_le
      have hbases := (Term.Normal.fits hcanonical.width_ge s hform.normal hdegree).base
      have hmeaning : s.meaning? I = some q := hform.meaning.trans hq
      have hbound : ∀ f ∈ s.top ++ s.bottom,
          (f.base.tally canonical u).natAbs ≤ f.base.degree 1 := by
        intro f hf
        obtain ⟨x, hx⟩ := Term.exists_base_meaning hmeaning f hf
        have hlt : f.base.effort < t.effort := (Term.base_effort_lt hf).trans_le hform.effort_le
        exact ih _ (he ▸ hlt) (hbases f hf) (hlt.le.trans hlimit) hx rfl
      have htop : (Factor.weight (·.tally canonical u) s.top).natAbs ≤
          Factor.totalDegree 1 s.top :=
        Factor.natAbs_weight_le fun f hf => hbound f (List.mem_append_left _ hf)
      have hbottom : (Factor.weight (·.tally canonical u) s.bottom).natAbs ≤
          Factor.totalDegree 1 s.bottom :=
        Factor.natAbs_weight_le fun f hf => hbound f (List.mem_append_right _ hf)
      simp only [tallyBy, degree, s.degree_eq]
      omega
    | _ => exact hu _

end Tree

end SymbolicAlgebra
