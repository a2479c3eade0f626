import Mathlib.Tactic.Linarith
import SymbolicAlgebra.Proofs.Negation

/-!
# Likeness of trees in general

Two values are alike if they lie at the same place of the extended number line, or both nowhere. So
likeness of trees is an equivalence, also where doubles and undefined numbers occur, and lists of
factors agree up to order if they hold as many factors like any given one.
-/

namespace SymbolicAlgebra

open Outcome

def Place.opposite : Place → Place
  | below => above
  | finite q => finite (-q)
  | above => below

namespace Value

theorem place?_eq_none_iff {v : Value} : v.place? = none ↔ v.isUndefined = true := by
  cases v with
  | exact q => simp [place?, isUndefined]
  | float x =>
    have hnan := Double.isNaN_iff x
    rw [place?, Double.ofFloat?_eq, isUndefined]
    split
    · next b hb =>
      have hfinite : Double.scale (Double.word x) ≠ 2047 := by
        intro h
        simp [h] at hb
      exact iff_of_false (by simp) fun h => hfinite (hnan.mp h).1
    · split
      · next h => exact iff_of_true rfl h
      · next h => exact iff_of_false (by split <;> simp) h

theorem same_iff {v w : Value} : v.same w = true ↔ v.place? = w.place? := by
  rw [same, Bool.or_eq_true, Bool.and_eq_true, ← place?_eq_none_iff, ← place?_eq_none_iff, eq]
  cases v.place? <;> cases w.place? <;> simp

theorem isOne_iff {v : Value} : v.isOne = true ↔ v.place? = some (.finite 1) := by
  rw [isOne, eq, show one.place? = some (.finite 1) from rfl]
  cases v.place? <;> simp

theorem isNegative_iff {v : Value} :
    v.isNegative = true ↔ v.place? = some .below ∨ ∃ q, q < 0 ∧ v.place? = some (.finite q) := by
  rw [isNegative, lt, show zero.place? = some (.finite 0) from rfl]
  cases v.place? with
  | none => simp
  | some p => cases p <;> simp [Place.lt]

theorem toRat_opposite (b : Binary64) :
    ({ b with negative := !b.negative } : Binary64).toRat = -b.toRat := by
  obtain ⟨negative, mantissa, exponent⟩ := b
  cases negative <;> simp [Binary64.toRat, Binary64.magnitude, Rat.neg_mkRat]

theorem place?_of_finite {x : Float} {b : Binary64} (h : Binary64.ofFloat? x = some b) :
    (float x).place? = some (.finite b.toRat) := by
  simp [place?, h]

theorem place?_of_infinite {x : Float} (hscale : Double.scale (Double.word x) = 2047)
    (hfraction : Double.fraction (Double.word x) = 0) :
    (float x).place? = some (if Double.isSigned (Double.word x) then .below else .above) := by
  have hnan : x.isNaN = false := by simpa [hscale, hfraction] using Double.isNaN_iff x
  have hinfinite : Binary64.ofFloat? x = none := by rw [Double.ofFloat?_eq, if_pos hscale]
  have hlt := Double.lt_zero_of_infinite hscale hfraction
  simp only [place?, hinfinite, hnan, hlt, Bool.false_eq_true, if_false]
  split <;> rfl

theorem place?_neg (x : Float) : (float (-x)).place? = (float x).place?.map Place.opposite := by
  rcases Double.word_neg x with ⟨hscale, hfraction, hword⟩ | ⟨hnot, hsign, hscale, hfraction⟩
  · have hx : (float x).place? = none :=
      place?_eq_none_iff.mpr ((Double.isNaN_iff x).mpr ⟨hscale, hfraction⟩)
    have hx' : (float (-x)).place? = none :=
      place?_eq_none_iff.mpr ((Double.isNaN_iff (-x)).mpr (by rw [hword]; exact ⟨hscale, hfraction⟩))
    rw [hx, hx']
    rfl
  · have hsigned := Double.isSigned_of_sign_eq_neg hsign
    by_cases hinfinite : Double.scale (Double.word x) = 2047
    · have hzero : Double.fraction (Double.word x) = 0 := by
        by_contra h
        exact hnot ⟨hinfinite, h⟩
      rw [place?_of_infinite hinfinite hzero,
        place?_of_infinite (hscale.trans hinfinite) (hfraction.trans hzero), hsigned]
      cases Double.isSigned (Double.word x) <;> rfl
    · obtain ⟨b, hb, hopposite⟩ : ∃ b, Binary64.ofFloat? x = some b ∧
          Binary64.ofFloat? (-x) = some { b with negative := !b.negative } := by
        rw [Double.ofFloat?_eq, Double.ofFloat?_eq, hscale, hfraction, hsigned, if_neg hinfinite,
          if_neg hinfinite]
        split
        · exact ⟨_, rfl, rfl⟩
        · exact ⟨_, rfl, rfl⟩
      rw [place?_of_finite hb, place?_of_finite hopposite, toRat_opposite]
      rfl

theorem place?_mul_negativeOne {v w : Value} (h : v.mul negativeOne = .ok w) :
    w.place? = v.place?.map Place.opposite := by
  cases v with
  | exact q =>
    obtain rfl := Except.ok.inj h
    simp [place?, Place.opposite]
  | float x =>
    have hmul : (float x).mul negativeOne = .ok (float (x * -1.0)) := by
      have hinexact : (float x).mul negativeOne = inexact (· * ·) (float x) negativeOne := rfl
      rw [hinexact, inexact, toFloat_negativeOne]
      rfl
    rw [hmul, Double.mul_neg_one] at h
    obtain rfl := Except.ok.inj h
    exact place?_neg x

theorem isNegative_opposite {v w : Value} (h : v.mul negativeOne = .ok w)
    (hv : v.isNegative = true) : w.isNegative = false := by
  rw [Bool.eq_false_iff, Ne, isNegative_iff, place?_mul_negativeOne h]
  rcases isNegative_iff.mp hv with hplace | ⟨q, hq, hplace⟩
  · simp [hplace, Place.opposite]
  · simp [hplace, Place.opposite, hq.le]

theorem place?_of_not_isNegative {v w : Value} (h : v.mul negativeOne = .ok w)
    (hv : v.isNegative = false) (hw : w.isNegative = false) :
    w.place? = none ∨ w.place? = some (.finite 0) := by
  have hplace := place?_mul_negativeOne h
  rw [Bool.eq_false_iff, Ne, isNegative_iff] at hv hw
  cases hp : v.place? with
  | none => simp [hplace, hp]
  | some p =>
    rw [hp] at hv hplace
    cases p with
    | below => simp at hv
    | above => simp [hplace, Place.opposite] at hw
    | finite q =>
      simp only [Option.map_some, Place.opposite] at hplace
      have hq : ¬ q < 0 := fun hq => hv (.inr ⟨q, hq, rfl⟩)
      have hq' : ¬ -q < 0 := fun hq => hw (.inr ⟨-q, hq, hplace⟩)
      have hzero : q = 0 := by linarith
      simp [hplace, hzero]

end Value

mutual

theorem Tree.same_refl : (t : Tree) → t.same t = true
  | .number v => Value.same_iff.mpr rfl
  | .constant c => by simp [Tree.same]
  | .variable x => by simp [Tree.same]
  | .power f => f.same_refl
  | .term t => t.same_refl
  | .sum ts => Term.sameAll_refl ts
  | .call f args => by simp [Tree.same, Tree.sameAll_refl args]

theorem Factor.same_refl : (f : Factor) → f.same f = true
  | ⟨b, e⟩ => by simp [Factor.same, b.same_refl, e.same_refl]

theorem Term.same_refl : (t : Term) → t.same t = true
  | ⟨m, d, top, bottom⟩ => by
    simp [Term.same, Value.same_iff, Factor.sameAll_refl top, Factor.sameAll_refl bottom]

theorem Factor.sameAll_refl : (fs : List Factor) → Factor.sameAll fs fs = true
  | [] => rfl
  | f :: fs => by simp [Factor.sameAll, f.same_refl, Factor.sameAll_refl fs]

theorem Term.sameAll_refl : (ts : List Term) → Term.sameAll ts ts = true
  | [] => rfl
  | t :: ts => by simp [Term.sameAll, t.same_refl, Term.sameAll_refl ts]

theorem Tree.sameAll_refl : (ts : List Tree) → Tree.sameAll ts ts = true
  | [] => rfl
  | t :: ts => by simp [Tree.sameAll, t.same_refl, Tree.sameAll_refl ts]

end

mutual

/-- Trees that are alike are like the same trees. -/
theorem Tree.same_congr : (s t : Tree) → s.same t = true → ∀ u : Tree, s.same u = t.same u
  | .number v, t, h, u => by
    cases t with
    | number w =>
      cases u with
      | number x =>
        rw [Bool.eq_iff_iff]
        simp only [Tree.same, Value.same_iff] at h ⊢
        rw [h]
      | _ => rfl
    | _ => simp [Tree.same] at h
  | .constant c, t, h, u => by
    cases t with
    | constant d =>
      obtain rfl : c = d := by simpa [Tree.same] using h
      rfl
    | _ => simp [Tree.same] at h
  | .variable x, t, h, u => by
    match t, h with
    | .variable y, h =>
      obtain rfl : x = y := by simpa [Tree.same] using h
      rfl
  | .power f, t, h, u => by
    cases t with
    | power g =>
      cases u with
      | power f' => exact f.same_congr g h f'
      | _ => rfl
    | _ => simp [Tree.same] at h
  | .term s, t, h, u => by
    cases t with
    | term t =>
      cases u with
      | term u => exact s.same_congr t h u
      | _ => rfl
    | _ => simp [Tree.same] at h
  | .sum ss, t, h, u => by
    cases t with
    | sum ts =>
      cases u with
      | sum us => exact Term.sameAll_congr ss ts h us
      | _ => rfl
    | _ => simp [Tree.same] at h
  | .call f args, t, h, u => by
    cases t with
    | call g args' =>
      simp only [Tree.same, Bool.and_eq_true, decide_eq_true_eq] at h
      obtain ⟨rfl, h⟩ := h
      cases u with
      | call f' us => simp only [Tree.same, Tree.sameAll_congr args args' h us]
      | _ => rfl
    | _ => simp [Tree.same] at h

theorem Factor.same_congr : (f g : Factor) → f.same g = true → ∀ h : Factor, f.same h = g.same h
  | ⟨b, e⟩, ⟨b', e'⟩, h, ⟨b'', e''⟩ => by
    simp only [Factor.same, Bool.and_eq_true] at h
    simp only [Factor.same, b.same_congr b' h.1, e.same_congr e' h.2]

theorem Term.same_congr : (s t : Term) → s.same t = true → ∀ u : Term, s.same u = t.same u
  | ⟨m, d, top, bottom⟩, ⟨m', d', top', bottom'⟩, h, ⟨m'', d'', top'', bottom''⟩ => by
    simp only [Term.same, Bool.and_eq_true] at h
    obtain ⟨⟨⟨hm, hd⟩, htop⟩, hbottom⟩ := h
    have hm' : m.same m'' = m'.same m'' := by
      rw [Bool.eq_iff_iff, Value.same_iff, Value.same_iff, Value.same_iff.mp hm]
    have hd' : d.same d'' = d'.same d'' := by
      rw [Bool.eq_iff_iff, Value.same_iff, Value.same_iff, Value.same_iff.mp hd]
    simp only [Term.same, hm', hd', Factor.sameAll_congr top top' htop,
      Factor.sameAll_congr bottom bottom' hbottom]

theorem Factor.sameAll_congr : (fs gs : List Factor) → Factor.sameAll fs gs = true →
    ∀ hs : List Factor, Factor.sameAll fs hs = Factor.sameAll gs hs
  | [], gs, h, hs => by cases gs <;> simp_all [Factor.sameAll]
  | f :: fs, [], h, hs => by simp [Factor.sameAll] at h
  | f :: fs, g :: gs, h, [] => rfl
  | f :: fs, g :: gs, h, f' :: hs => by
    simp only [Factor.sameAll, Bool.and_eq_true] at h
    simp only [Factor.sameAll, f.same_congr g h.1, Factor.sameAll_congr fs gs h.2]

theorem Term.sameAll_congr : (ss ts : List Term) → Term.sameAll ss ts = true →
    ∀ us : List Term, Term.sameAll ss us = Term.sameAll ts us
  | [], ts, h, us => by cases ts <;> simp_all [Term.sameAll]
  | s :: ss, [], h, us => by simp [Term.sameAll] at h
  | s :: ss, t :: ts, h, [] => rfl
  | s :: ss, t :: ts, h, u :: us => by
    simp only [Term.sameAll, Bool.and_eq_true] at h
    simp only [Term.sameAll, s.same_congr t h.1, Term.sameAll_congr ss ts h.2]

theorem Tree.sameAll_congr : (ss ts : List Tree) → Tree.sameAll ss ts = true →
    ∀ us : List Tree, Tree.sameAll ss us = Tree.sameAll ts us
  | [], ts, h, us => by cases ts <;> simp_all [Tree.sameAll]
  | s :: ss, [], h, us => by simp [Tree.sameAll] at h
  | s :: ss, t :: ts, h, [] => rfl
  | s :: ss, t :: ts, h, u :: us => by
    simp only [Tree.sameAll, Bool.and_eq_true] at h
    simp only [Tree.sameAll, s.same_congr t h.1, Tree.sameAll_congr ss ts h.2]

end

instance : EquivBEq Factor where
  rfl := Factor.same_refl _
  symm {f g} h := (Factor.same_congr f g h f).symm.trans (Factor.same_refl f)
  trans {f g h} hfg hgh := (Factor.same_congr f g hfg h).trans hgh

section
variable {α : Type} [BEq α] [EquivBEq α]

theorem count_erase_of_contains {a : α} {l : List α} (h : l.contains a = true) (c : α) :
    l.count c = (l.erase a).count c + if a == c then 1 else 0 := by
  induction l with
  | nil => simp at h
  | cons b l ih =>
    by_cases hb : (b == a) = true
    · have hcount : (if b == c then 1 else 0) = if a == c then 1 else 0 := by
        have hbeq : (b == c) = (a == c) :=
          Bool.eq_iff_iff.mpr ⟨fun hc => BEq.trans (BEq.symm hb) hc, fun hc => BEq.trans hb hc⟩
        rw [hbeq]
      rw [List.erase_cons, if_pos hb, List.count_cons, hcount]
    · have hrest : l.contains a = true := by
        rw [List.contains_cons, Bool.or_eq_true] at h
        exact h.resolve_left fun ha => hb (BEq.symm ha)
      rw [List.erase_cons, if_neg hb, List.count_cons, List.count_cons, ih hrest]
      omega

theorem isPerm_iff_count {l₁ l₂ : List α} :
    l₁.isPerm l₂ = true ↔ ∀ a, l₁.count a = l₂.count a := by
  induction l₁ generalizing l₂ with
  | nil =>
    cases l₂ with
    | nil => simp [List.isPerm]
    | cons b l₂ =>
      simp only [List.isPerm, List.isEmpty_cons, Bool.false_eq_true, List.count_nil, false_iff]
      intro h
      have hself := h b
      rw [List.count_cons, if_pos BEq.rfl] at hself
      omega
  | cons a l₁ ih =>
    rw [List.isPerm, Bool.and_eq_true]
    constructor
    · rintro ⟨hcontains, hperm⟩ c
      rw [List.count_cons, count_erase_of_contains hcontains, ih.mp hperm]
    · intro h
      have hcontains : l₂.contains a = true := by
        have hself := h a
        rw [List.count_cons, if_pos BEq.rfl] at hself
        have hpos : 0 < l₂.count a := by omega
        obtain ⟨b, hb, hba⟩ := List.countP_pos_iff.mp hpos
        exact List.contains_iff_exists_mem_beq.mpr ⟨b, hb, BEq.symm hba⟩
      refine ⟨hcontains, ih.mpr fun c => ?_⟩
      have hcount := h c
      rw [List.count_cons, count_erase_of_contains hcontains] at hcount
      omega

end

namespace Factor

/-- The lists hold as many factors like any given one. -/
def Alike (fs gs : List Factor) : Prop := ∀ f, fs.count f = gs.count f

theorem isPerm_iff_alike {fs gs : List Factor} : fs.isPerm gs = true ↔ Alike fs gs :=
  isPerm_iff_count

theorem Alike.refl (fs : List Factor) : Alike fs fs := fun _ => rfl

theorem Alike.symm {fs gs : List Factor} (h : Alike fs gs) : Alike gs fs := fun f => (h f).symm

theorem Alike.trans {fs gs hs : List Factor} (h : Alike fs gs) (h' : Alike gs hs) : Alike fs hs :=
  fun f => (h f).trans (h' f)

theorem Alike.append {fs gs fs' gs' : List Factor} (h : Alike fs gs) (h' : Alike fs' gs') :
    Alike (fs ++ fs') (gs ++ gs') := by
  intro f
  rw [List.count_append, List.count_append, h f, h' f]

theorem alike_append_comm (fs gs : List Factor) : Alike (fs ++ gs) (gs ++ fs) := by
  intro f
  rw [List.count_append, List.count_append, Nat.add_comm]

theorem alike_singleton {f g : Factor} (h : f.same g = true) : Alike [f] [g] := by
  intro c
  have hbeq : (f == c) = (g == c) := Factor.same_congr f g h c
  simp only [List.count_singleton, hbeq]

theorem Alike.exists_same {fs gs : List Factor} (h : Alike fs gs) {f : Factor} (hf : f ∈ fs) :
    ∃ g ∈ gs, g.same f = true := by
  have hpos : 0 < fs.count f := List.countP_pos_iff.mpr ⟨f, hf, BEq.rfl⟩
  rw [h f] at hpos
  obtain ⟨g, hg, hsame⟩ := List.countP_pos_iff.mp hpos
  exact ⟨g, hg, hsame⟩

theorem Alike.side {fs gs : List Factor} (h : Alike fs gs) :
    Alike (Term.side fs) (Term.side gs) := by
  cases fs with
  | nil =>
    cases gs with
    | nil => exact .refl _
    | cons g gs =>
      obtain ⟨f, hf, -⟩ := h.symm.exists_same List.mem_cons_self
      simp at hf
  | cons f fs =>
    cases gs with
    | nil =>
      obtain ⟨g, hg, -⟩ := h.exists_same List.mem_cons_self
      simp at hg
    | cons g gs => exact h

end Factor

end SymbolicAlgebra
