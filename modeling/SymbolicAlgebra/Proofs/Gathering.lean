import SymbolicAlgebra.Proofs.Likeness
import SymbolicAlgebra.Proofs.Normal
import SymbolicAlgebra.Proofs.QueueStep

/-!
# Gathered factors

The factors that are gathered on a side of a term are whole powers of normal atoms, no two of the
same base. Merging a power into them and cancelling a base between two sides keep this up, keep the
meaning, and keep every weighted sum of the exponents. The last is what bounds the degree of a term
after its factors have been gathered: for suitable weights of the bases it is such a sum.
-/

namespace SymbolicAlgebra

open Outcome

variable {I : Interpretation}

theorem zpow_add_of_nonneg {x : Rat} {m n : Int} (hm : x ≠ 0 ∨ 0 ≤ m) (hn : x ≠ 0 ∨ 0 ≤ n) :
    x ^ m * x ^ n = x ^ (m + n) := by
  by_cases hx : x = 0
  · have hm' : 0 ≤ m := hm.resolve_left (not_not_intro hx)
    have hn' : 0 ≤ n := hn.resolve_left (not_not_intro hx)
    lift m to ℕ using hm'
    lift n to ℕ using hn'
    rw [← Nat.cast_add, zpow_natCast, zpow_natCast, zpow_natCast, pow_add]
  · exact (zpow_add₀ hx m n).symm

namespace Tree

@[simp] theorem add_whole (m n : Int) : (whole m).add (whole n) = .ok (whole (m + n)) := by
  simp [whole, Tree.add, Value.add_exact]

@[simp] theorem multiply_whole (m n : Int) :
    (whole m).multiply (whole n) = .ok (whole (m * n)) := by
  simp [whole, Tree.multiply, Value.mul_exact]

@[simp] theorem negate_whole (n : Int) : (whole n).negate = .ok (whole (-n)) := by
  have hone : negativeOne = whole (-1) := by simp [negativeOne, Value.negativeOne, whole]
  rw [negate, hone, multiply_whole, Int.mul_neg_one]

@[simp] theorem integer?_whole (n : Int) : (whole n).integer? = .ok (some n) := by
  simp [integer?, whole, Tree.plainValue?]

end Tree

namespace Factor

theorem meaning?_whole {b : Tree} {n : Int} {q : Rat} :
    (⟨b, .whole n⟩ : Factor).meaning? I = some q ↔
      ∃ x, b.meaning? I = some x ∧ (x ≠ 0 ∨ 0 ≤ n) ∧ q = x ^ n := by
  rw [meaning?_eq_some]
  constructor
  · rintro ⟨x, k, hx, hk, hn, rfl⟩
    obtain rfl : n = k := by simpa using hk
    exact ⟨x, hx, hn, rfl⟩
  · rintro ⟨x, hx, hn, rfl⟩
    exact ⟨x, n, hx, Tree.meaning?_whole n, hn, rfl⟩

theorem exists_base_meaning {f : Factor} {q : Rat} (h : f.meaning? I = some q) :
    ∃ x, f.base.meaning? I = some x := by
  obtain ⟨x, _, hx, _⟩ := meaning?_eq_some.mp h
  exact ⟨x, hx⟩

theorem exists_base_meaning_of_mem {fs : List Factor} {p : Rat} (h : product? I fs = some p) :
    ∀ f ∈ fs, ∃ x, f.base.meaning? I = some x := by
  intro f hf
  obtain ⟨q, hq⟩ := exists_meaning_of_mem h hf
  exact exists_base_meaning hq

theorem product?_append_singleton {fs : List Factor} {f : Factor} {a v : Rat}
    (ha : product? I fs = some a) (hv : f.meaning? I = some v) :
    product? I (fs ++ [f]) = some (a * v) :=
  product?_append_eq_some.mpr
    ⟨a, v, ha, (product?_singleton f).trans hv, rfl⟩

/-- The sum of the exponents, each weighted by its base. -/
def weight (w : Tree → Int) : List Factor → Int
  | [] => 0
  | f :: rest => f.exponent.wholePart * w f.base + weight w rest

theorem weight_append (w : Tree → Int) (fs gs : List Factor) :
    weight w (fs ++ gs) = weight w fs + weight w gs := by
  induction fs with
  | nil => simp [weight]
  | cons f fs ih => simp [weight, ih, Int.add_assoc]

theorem weight_perm (w : Tree → Int) {fs gs : List Factor} (h : fs.Perm gs) :
    weight w fs = weight w gs := by
  induction h with
  | nil => rfl
  | cons f _ ih => simp [weight, ih]
  | swap f g fs => simp only [weight]; omega
  | trans _ _ ih ih' => rw [ih, ih']

theorem weight_congr {w w' : Tree → Int} {fs : List Factor} (h : ∀ f ∈ fs, w f.base = w' f.base) :
    weight w fs = weight w' fs := by
  induction fs with
  | nil => rfl
  | cons f fs ih =>
    have hf := h f List.mem_cons_self
    have hfs := ih fun g hg => h g (List.mem_cons_of_mem _ hg)
    simp only [weight, hf, hfs]

/-- Weights that the degrees bound give a sum that the total degree bounds. -/
theorem natAbs_weight_le {w : Tree → Int} {least : Nat} {fs : List Factor}
    (h : ∀ f ∈ fs, (w f.base).natAbs ≤ f.base.degree least) :
    (weight w fs).natAbs ≤ totalDegree least fs := by
  induction fs with
  | nil => simp [weight]
  | cons f fs ih =>
    obtain ⟨base, exponent⟩ := f
    have hf := Nat.mul_le_mul_left exponent.wholePart.natAbs (h _ List.mem_cons_self)
    have hfs := ih fun g hg => h g (List.mem_cons_of_mem _ hg)
    simp only [weight, totalDegree, degree]
    rw [← Int.natAbs_mul] at hf
    exact (Int.natAbs_add_le _ _).trans (Nat.add_le_add hf hfs)

theorem exists_weight_eq_totalDegree {least : Nat} {fs : List Factor}
    (h : (fs.map (·.base)).Nodup) :
    ∃ w : Tree → Int, (∀ b, (w b).natAbs ≤ b.degree least) ∧ weight w fs = totalDegree least fs := by
  classical
  induction fs with
  | nil => exact ⟨fun _ => 0, by simp, rfl⟩
  | cons f fs ih =>
    obtain ⟨base, exponent⟩ := f
    obtain ⟨hbase, hrest⟩ := List.nodup_cons.mp h
    obtain ⟨w, hw, htotal⟩ := ih hrest
    refine ⟨Function.update w base (exponent.wholePart.sign * base.degree least), ?_, ?_⟩
    · intro b
      by_cases hb : b = base
      · subst hb
        rw [Function.update_self, Int.natAbs_mul, Int.natAbs_natCast]
        have hsign : exponent.wholePart.sign.natAbs ≤ 1 := by
          rcases Int.sign_trichotomy exponent.wholePart with hs | hs | hs <;> simp [hs]
        exact (Nat.mul_le_mul_right _ hsign).trans_eq (Nat.one_mul _)
      · rw [Function.update_of_ne hb]
        exact hw b
    · have hother : weight (Function.update w base (exponent.wholePart.sign * base.degree least)) fs
          = weight w fs := by
        apply weight_congr
        intro g hg
        apply Function.update_of_ne
        rintro rfl
        exact hbase (List.mem_map.mpr ⟨g, hg, rfl⟩)
      simp only [weight, hother, htotal, totalDegree, degree, Function.update_self]
      rw [← Int.mul_assoc, Int.mul_sign_self]
      push_cast
      ring

/-- A whole power of a tidy atom of bounded effort. -/
def IsAtomPower (limit : Nat) (f : Factor) : Prop :=
  f.base.IsAtom ∧ f.base.IsTidy ∧ f.base.effort ≤ limit ∧ ∃ n : Int, f.exponent = .whole n

/-- Whole powers of atoms, no two of the same one. -/
structure Gathered (limit : Nat) (fs : List Factor) : Prop where
  nodup : (fs.map (·.base)).Nodup
  isAtomPower : ∀ f ∈ fs, f.IsAtomPower limit

variable {limit : Nat}

theorem gathered_nil : Gathered limit [] := ⟨List.nodup_nil, by simp⟩

theorem Gathered.perm {fs gs : List Factor} (h : Gathered limit fs) (hp : fs.Perm gs) :
    Gathered limit gs :=
  ⟨((hp.map _).nodup_iff).mp h.nodup, fun f hf => h.isAtomPower f (hp.mem_iff.mpr hf)⟩

theorem gathered_cons {f : Factor} {fs : List Factor} :
    Gathered limit (f :: fs) ↔
      f.IsAtomPower limit ∧ f.base ∉ fs.map (·.base) ∧ Gathered limit fs := by
  constructor
  · intro h
    obtain ⟨hbase, hnodup⟩ := List.nodup_cons.mp h.nodup
    obtain ⟨hf, hfs⟩ := List.forall_mem_cons.mp h.isAtomPower
    exact ⟨hf, hbase, hnodup, hfs⟩
  · rintro ⟨hf, hbase, hfs⟩
    exact ⟨List.nodup_cons.mpr ⟨hbase, hfs.nodup⟩, List.forall_mem_cons.mpr ⟨hf, hfs.isAtomPower⟩⟩

theorem Gathered.append {f : Factor} {fs : List Factor} (h : Gathered limit fs)
    (hf : f.IsAtomPower limit) (hbase : f.base ∉ fs.map (·.base)) : Gathered limit (fs ++ [f]) :=
  (gathered_cons.mpr ⟨hf, hbase, h⟩).perm (List.perm_append_singleton f fs).symm

/-- Looking up a base either finds none or an exponent, in whose place another can be set. -/
theorem exponentOf?_cases {fs : List Factor} {b : Tree} {x : Rat} (hb : b.meaning? I = some x)
    (hfs : ∀ f ∈ fs, ∃ y, f.base.meaning? I = some y) :
    (exponentOf? fs b = none ∧ b ∉ fs.map (·.base)) ∨
      ∃ e, exponentOf? fs b = some e ∧ fs.Perm (⟨b, e⟩ :: eraseBase b fs) ∧
        ∀ e', (setExponent b e' fs).Perm (⟨b, e'⟩ :: eraseBase b fs) := by
  induction fs with
  | nil => exact .inl ⟨rfl, List.not_mem_nil⟩
  | cons f fs ih =>
    obtain ⟨base, exponent⟩ := f
    obtain ⟨⟨y, hy⟩, hfs⟩ := List.forall_mem_cons.mp hfs
    simp only at hy
    by_cases hsame : base.same b = true
    · obtain rfl : base = b := (base.same_iff b hy hb).mp hsame
      exact .inr ⟨exponent, by simp [exponentOf?, hsame], by simp [eraseBase, hsame],
        by simp [setExponent, eraseBase, hsame]⟩
    · have hne : base ≠ b := fun h => hsame ((base.same_iff b hy hb).mpr h)
      have hlookup : exponentOf? (⟨base, exponent⟩ :: fs) b = exponentOf? fs b := by
        simp [exponentOf?, hsame]
      have herase : eraseBase b (⟨base, exponent⟩ :: fs) = ⟨base, exponent⟩ :: eraseBase b fs := by
        simp [eraseBase, hsame]
      rcases ih hfs with ⟨hnone, hmem⟩ | ⟨e, he, hperm, hset⟩
      · refine .inl ⟨hlookup.trans hnone, ?_⟩
        rw [List.map_cons, List.mem_cons, not_or]
        exact ⟨hne.symm, hmem⟩
      · refine .inr ⟨e, hlookup.trans he, ?_, fun e' => ?_⟩
        · rw [herase]
          exact (hperm.cons _).trans (List.Perm.swap _ _ _)
        · rw [herase]
          simp only [setExponent, hsame, Bool.false_eq_true, if_false]
          exact ((hset e').cons _).trans (List.Perm.swap _ _ _)

end Factor

end SymbolicAlgebra
