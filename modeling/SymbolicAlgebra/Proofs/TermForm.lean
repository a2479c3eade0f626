import SymbolicAlgebra.Proofs.Collecting
import SymbolicAlgebra.Proofs.Double
import SymbolicAlgebra.Proofs.Product
import SymbolicAlgebra.Proofs.Ratio

/-!
# Folding factors into a term

Building a term of whole powers of atoms drops the zeroth powers and the placeholders and keeps the
other factors as they are. So a product whose factors have been gathered becomes a normal term of
the same meaning.
-/

namespace SymbolicAlgebra

open Outcome

variable {I : Interpretation}

instance : DecidablePred Tree.IsAtom
  | .constant _ | .variable _ | .sum _ | .call .. => .isTrue trivial
  | .number _ | .power _ | .term _ => .isFalse id

namespace Factor

/-- A whole power of a normal atom, or the placeholder. -/
def IsFoldable (f : Factor) : Prop :=
  f = placeholder ∨ f.base.IsAtom ∧ f.base.Normal ∧ ∃ n : Int, f.exponent = .whole n

/-- Folding keeps the factor. -/
def stays (f : Factor) : Bool := f.base.IsAtom ∧ f.exponent.wholePart ≠ 0

theorem IsFoldable.normal {f : Factor} (h : f.IsFoldable) (hs : f.stays = true) : f.Normal := by
  obtain ⟨hatom, hn⟩ : f.base.IsAtom ∧ f.exponent.wholePart ≠ 0 := by simpa [stays] using hs
  rcases h with rfl | ⟨-, hnormal, n, he⟩
  · exact hatom.elim
  · exact normal_iff.mpr ⟨hatom, hnormal, n, by simpa [he] using hn, he⟩

theorem Normal.isFoldable {f : Factor} (h : f.Normal) : f.IsFoldable := by
  obtain ⟨hatom, hnormal, n, -, he⟩ := normal_iff.mp h
  exact .inr ⟨hatom, hnormal, n, he⟩

theorem NormalSide.isFoldable {fs : List Factor} (h : NormalSide fs) : ∀ f ∈ fs, f.IsFoldable := by
  rcases h with rfl | ⟨-, hfs⟩
  · exact List.forall_mem_singleton.mpr (.inl rfl)
  · exact fun f hf => (hfs f hf).isFoldable

theorem IsAtomPower.isFoldable {limit : Nat} {f : Factor} (h : f.IsAtomPower limit) :
    f.IsFoldable := .inr ⟨h.1, h.2.1.normal, h.2.2.2⟩

end Factor

namespace Tree

theorem absorb_zero (c : Tree) (v : Value) : c.absorb (.whole 0) v = .ok (v, none) := by
  rw [absorb.eq_def]
  simp

/-- A power of what is no number is kept, unless it is a first power of something negative. -/
theorem absorb_keeps {c : Tree} {n : Int} (hn : n ≠ 0) (hplain : c.plainValue? = .ok none)
    (hsign : n = 1 → c.isNegative = .ok false) (v : Value) :
    c.absorb (.whole n) v = .ok (v, some ⟨c, .whole n⟩) := by
  have hvalue : (⟨c, .whole n⟩ : Factor).value? = .ok none := by simp [Factor.value?, hplain]
  rw [absorb.eq_def]
  by_cases hn1 : n = 1
  · subst hn1
    simp [hvalue, hsign rfl]
  · simp [hn, hn1, hvalue]

end Tree

namespace Factor

theorem value?_placeholder : placeholder.value? = .ok (some .one) := by
  have hpower := Value.exactPower?_exact (x := 1) (n := 1) (.inr Int.one_nonneg) (by decide)
  rw [one_zpow] at hpower
  exact hpower

theorem absorb_placeholder (c : Value) :
    placeholder.base.absorb placeholder.exponent c = .ok (c, none) := by
  have hvalue : (⟨placeholder.base, placeholder.exponent⟩ : Factor).value? = .ok (some .one) :=
    value?_placeholder
  have hone : placeholder.exponent.isZero = .ok false := rfl
  rw [Tree.absorb.eq_def]
  simp [hvalue, hone, Value.mul_one]

theorem absorb_ok {f : Factor} (h : f.IsFoldable) (c : Rat) :
    f.base.absorb f.exponent (.exact c) =
      .ok (.exact c, if f.stays then some f else none) := by
  rcases h with rfl | ⟨hatom, hnormal, n, he⟩
  · have hstays : placeholder.stays = false := decide_eq_false fun h => h.1.elim
    simp [absorb_placeholder, hstays]
  · obtain ⟨base, exponent⟩ := f
    simp only at hatom hnormal he
    subst he
    by_cases hn : n = 0
    · subst hn
      simp [Tree.absorb_zero, stays]
    · simp [Tree.absorb_keeps hn (hatom.plainValue? hnormal) fun _ => hatom.isNegative, stays, hn,
        hatom]

/-- A factor that folding drops is the placeholder or a zeroth power. -/
theorem IsFoldable.dropped {f : Factor} (h : f.IsFoldable) (hs : f.stays = false) :
    f = placeholder ∨ f.exponent = .whole 0 := by
  rcases h with rfl | ⟨hatom, -, n, he⟩
  · exact .inl rfl
  · obtain rfl : n = 0 := by simpa [stays, hatom, he] using hs
    exact .inr he

theorem IsFoldable.dropped_meaning {f : Factor} {y : Rat} (h : f.IsFoldable)
    (hs : f.stays = false) (hy : f.meaning? I = some y) : y = 1 := by
  obtain ⟨base, exponent⟩ := f
  rcases h.dropped hs with hplaceholder | rfl
  · obtain ⟨rfl, rfl⟩ : base = .one ∧ exponent = .one := by
      simpa [placeholder] using hplaceholder
    simp only [← Tree.whole_one] at hy
    obtain ⟨x, hx, -, rfl⟩ := meaning?_whole.mp hy
    obtain rfl : (1 : Rat) = x := by simpa using hx
    exact one_zpow 1
  · obtain ⟨x, -, -, rfl⟩ := meaning?_whole.mp hy
    exact zpow_zero x

theorem IsFoldable.dropped_degree {f : Factor} {least : Nat} (h : f.IsFoldable)
    (hs : f.stays = false) : f.degree least = 0 := by
  obtain ⟨base, exponent⟩ := f
  rcases h.dropped hs with hplaceholder | rfl
  · rw [hplaceholder, degree_placeholder]
  · simp [degree]

theorem IsFoldable.dropped_weight {f : Factor} {w : Tree → Int} (h : f.IsFoldable)
    (hs : f.stays = false) (hw : w .one = 0) : f.exponent.wholePart * w f.base = 0 := by
  obtain ⟨base, exponent⟩ := f
  rcases h.dropped hs with hplaceholder | rfl
  · obtain ⟨rfl, rfl⟩ : base = .one ∧ exponent = .one := by
      simpa [placeholder] using hplaceholder
    simp [hw]
  · simp

/-- The side that folding leaves of factors. -/
def kept (fs : List Factor) : List Factor := Term.side (fs.filter stays)

theorem normalSide_kept {fs : List Factor} (h : ∀ f ∈ fs, f.IsFoldable) : NormalSide (kept fs) := by
  apply normalSide_side
  intro f hf
  obtain ⟨hf, hs⟩ := List.mem_filter.mp hf
  exact (h f hf).normal hs

theorem NormalSide.kept_eq {fs : List Factor} (h : NormalSide fs) : kept fs = fs := by
  rcases h with rfl | ⟨hne, hfs⟩
  · have hs : stays placeholder = false := decide_eq_false fun h => h.1.elim
    simp [kept, hs, Term.side]
  · have hfilter : fs.filter stays = fs := by
      apply List.filter_eq_self.mpr
      intro f hf
      obtain ⟨hatom, -, n, hn, he⟩ := normal_iff.mp (hfs f hf)
      simp [stays, hatom, he, hn]
    rw [kept, hfilter]
    cases fs with
    | nil => exact absurd rfl hne
    | cons f fs => rfl

theorem product?_kept {fs : List Factor} {y : Rat} (h : ∀ f ∈ fs, f.IsFoldable)
    (hy : product? I fs = some y) : product? I (kept fs) = some y := by
  rw [kept, product?_side]
  induction fs generalizing y with
  | nil => exact hy
  | cons f fs ih =>
    obtain ⟨hf, hfs⟩ := List.forall_mem_cons.mp h
    obtain ⟨a, b, ha, hb, rfl⟩ := product?_cons_eq_some.mp hy
    rw [List.filter_cons]
    split
    · exact product?_cons_eq_some.mpr ⟨a, b, ha, ih hfs hb, rfl⟩
    · next hs =>
      rw [hf.dropped_meaning (by simpa using hs) ha, one_mul]
      exact ih hfs hb

theorem mem_kept {f : Factor} {fs : List Factor} (h : f ∈ kept fs) : f ∈ fs ∨ f = placeholder := by
  unfold kept at h
  cases hfilter : fs.filter stays with
  | nil =>
    rw [hfilter] at h
    exact .inr (List.mem_singleton.mp h)
  | cons g gs =>
    rw [hfilter] at h
    have hmem : f ∈ fs.filter stays := hfilter ▸ h
    exact .inl (List.mem_of_mem_filter hmem)

theorem IsAtomPower.inLowestTerms {limit : Nat} {f : Factor} (h : f.IsAtomPower limit) :
    (Tree.power f).InLowestTerms := by
  obtain ⟨-, htidy, -, n, he⟩ := h
  refine Tree.allTerms_power.mpr ⟨htidy.lowest, ?_⟩
  rw [he]
  exact Tree.allTerms_number _

theorem Gathered.kept_inLowestTerms {limit : Nat} {fs : List Factor} (h : Gathered limit fs) :
    ∀ f ∈ kept fs, (Tree.power f).InLowestTerms := by
  intro f hf
  rcases mem_kept hf with hf | rfl
  · exact (h.isAtomPower f hf).inLowestTerms
  · exact allTerms_placeholder

theorem totalDegree_side {least : Nat} (fs : List Factor) :
    totalDegree least (Term.side fs) = totalDegree least fs := by
  cases fs with
  | nil => simp [Term.side, totalDegree, degree_placeholder]
  | cons f fs => rfl

theorem totalDegree_kept {least : Nat} {fs : List Factor} (h : ∀ f ∈ fs, f.IsFoldable) :
    totalDegree least (kept fs) = totalDegree least fs := by
  rw [kept, totalDegree_side]
  induction fs with
  | nil => rfl
  | cons f fs ih =>
    obtain ⟨hf, hfs⟩ := List.forall_mem_cons.mp h
    rw [List.filter_cons, totalDegree]
    split
    · rw [totalDegree, ih hfs]
    · next hs => rw [hf.dropped_degree (by simpa using hs), ih hfs, zero_add]

theorem weight_side {w : Tree → Int} (hw : w .one = 0) (fs : List Factor) :
    weight w (Term.side fs) = weight w fs := by
  cases fs with
  | nil => simp [Term.side, weight, placeholder, hw]
  | cons f fs => rfl

theorem weight_kept {w : Tree → Int} (hw : w .one = 0) {fs : List Factor}
    (h : ∀ f ∈ fs, f.IsFoldable) : weight w (kept fs) = weight w fs := by
  rw [kept, weight_side hw]
  induction fs with
  | nil => rfl
  | cons f fs ih =>
    obtain ⟨hf, hfs⟩ := List.forall_mem_cons.mp h
    rw [List.filter_cons, weight]
    split
    · rw [weight, ih hfs]
    · next hs => rw [hf.dropped_weight (by simpa using hs) hw, ih hfs, zero_add]

theorem kept_perm {fs gs : List Factor} (h : fs.Perm gs) : (kept fs).Perm (kept gs) := by
  have hfilter : (fs.filter stays).Perm (gs.filter stays) := h.filter _
  unfold kept
  cases hfs : fs.filter stays with
  | nil =>
    rw [hfs] at hfilter
    rw [List.nil_perm.mp hfilter]
  | cons f fs' =>
    cases hgs : gs.filter stays with
    | nil =>
      rw [hfs, hgs] at hfilter
      exact absurd hfilter.length_eq (by simp)
    | cons g gs' =>
      rw [hfs, hgs] at hfilter
      exact hfilter

end Factor

namespace Term

theorem collect_ok (c : Rat) {fs : List Factor} (h : ∀ f ∈ fs, f.IsFoldable) :
    collect (.exact c) fs = .ok (.exact c, fs.filter Factor.stays) := by
  induction fs with
  | nil => rfl
  | cons f fs ih =>
    obtain ⟨hf, hfs⟩ := List.forall_mem_cons.mp h
    refine collect_cons_eq_ok.mpr ⟨_, _, _, Factor.absorb_ok hf c, ih hfs, ?_⟩
    rw [List.filter_cons]
    cases f.stays <;> rfl

theorem collect_placeholders (c : Value) {fs : List Factor} (h : ∀ f ∈ fs, f = .placeholder) :
    collect c fs = .ok (c, []) := by
  induction fs with
  | nil => rfl
  | cons f fs ih =>
    obtain ⟨rfl, hfs⟩ := List.forall_mem_cons.mp h
    exact collect_cons_eq_ok.mpr ⟨c, none, [], Factor.absorb_placeholder c, ih hfs, rfl⟩

theorem of_ok (m d : Rat) {top bottom : List Factor} (htop : ∀ f ∈ top, f.IsFoldable)
    (hbottom : ∀ f ∈ bottom, f.IsFoldable) :
    of (.exact m) (.exact d) top bottom =
      .ok ⟨.exact m, .exact d, Factor.kept top, Factor.kept bottom⟩ := by
  simp [of, collect_ok m htop, collect_ok d hbottom, Factor.kept]

end Term

end SymbolicAlgebra
