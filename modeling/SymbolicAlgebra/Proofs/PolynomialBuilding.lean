import SymbolicAlgebra.Proofs.Polynomial

/-!
# Building polynomial trees

What is built from polynomial trees is polynomial again, and stands for the sum, the product or the
opposite of what they stand for. The bulk of a tree counts the bases in it, however deep; unwrapping
and folding do not add to it.
-/

namespace SymbolicAlgebra

open Outcome
open MvPolynomial (X C aeval)

mutual

/-- The number of bases in a tree, where the denominators of terms and the exponents are left out. -/
def Tree.bulk : Tree → Nat
  | .power f => f.bulk
  | .term t => t.bulk
  | .sum ts => 1 + Term.totalBulk ts
  | .number _ | .constant _ | .variable _ | .call .. => 1

def Factor.bulk : Factor → Nat
  | ⟨base, _⟩ => 1 + base.bulk

def Term.bulk : Term → Nat
  | ⟨_, _, top, _⟩ => 1 + Factor.totalBulk top

def Factor.totalBulk : List Factor → Nat
  | [] => 0
  | ⟨base, _⟩ :: rest => base.bulk + Factor.totalBulk rest

def Term.totalBulk : List Term → Nat
  | [] => 0
  | t :: rest => t.bulk + Term.totalBulk rest

end

@[simp] theorem Factor.totalBulk_nil : totalBulk [] = 0 := rfl

@[simp] theorem Factor.totalBulk_cons (f : Factor) (fs : List Factor) :
    totalBulk (f :: fs) = f.base.bulk + totalBulk fs := by
  cases f
  rfl

theorem Term.bulk_eq (t : Term) : t.bulk = 1 + Factor.totalBulk t.top := by
  cases t
  rfl

theorem Tree.bulk_pos (t : Tree) : 1 ≤ t.bulk := by
  cases t with
  | power f =>
    cases f
    exact Nat.le_add_right _ _
  | term t => exact (Nat.le_add_right _ _).trans t.bulk_eq.ge
  | _ => simp [bulk]

theorem Factor.totalBulk_append (fs gs : List Factor) :
    totalBulk (fs ++ gs) = totalBulk fs + totalBulk gs := by
  induction fs with
  | nil => simp
  | cons f fs ih => simp [ih, Nat.add_assoc]

theorem Factor.length_le_totalBulk (fs : List Factor) : fs.length ≤ totalBulk fs := by
  induction fs with
  | nil => exact le_rfl
  | cons f fs ih =>
    have hpos := f.base.bulk_pos
    rw [List.length_cons, totalBulk_cons]
    omega

theorem Factor.totalBulk_pos {fs : List Factor} (h : fs ≠ []) : 1 ≤ totalBulk fs :=
  (List.length_pos_iff.mpr h).trans_le (length_le_totalBulk fs)

theorem Factor.bulk_le_totalBulk {f : Factor} {fs : List Factor} (h : f ∈ fs) :
    f.base.bulk ≤ totalBulk fs := by
  induction fs with
  | nil => simp at h
  | cons g fs ih =>
    rw [totalBulk_cons]
    rcases List.mem_cons.mp h with rfl | h
    · exact Nat.le_add_right _ _
    · exact (ih h).trans (Nat.le_add_left _ _)

theorem Term.totalBulk_append (ss ts : List Term) :
    totalBulk (ss ++ ts) = totalBulk ss + totalBulk ts := by
  induction ss with
  | nil => simp [totalBulk]
  | cons s ss ih => simp [totalBulk, ih, Nat.add_assoc]

theorem Term.totalBulk_perm {ss ts : List Term} (h : ss.Perm ts) : totalBulk ss = totalBulk ts := by
  induction h with
  | nil => rfl
  | cons t _ ih => simp [totalBulk, ih]
  | swap s t ts => simp only [totalBulk]; omega
  | trans _ _ ih ih' => rw [ih, ih']

theorem Term.bulk_le_totalBulk {t : Term} {ts : List Term} (h : t ∈ ts) :
    t.bulk ≤ totalBulk ts := by
  induction ts with
  | nil => simp at h
  | cons s ts ih =>
    rcases List.mem_cons.mp h with rfl | h
    · exact Nat.le_add_right _ _
    · exact (ih h).trans (Nat.le_add_left _ _)

variable {sums : Bool}

mutual

theorem Tree.reduce_isPolynomial : (t : Tree) → {c : Tree} → t.IsPolynomial sums →
    t.reduce = .ok c → c.IsPolynomial sums ∧ c.bulk ≤ t.bulk
  | .number _, c, h, hc | .constant _, c, h, hc | .variable _, c, h, hc | .sum [], c, h, hc
  | .sum (_ :: _ :: _), c, h, hc | .call .., c, h, hc => by
    obtain rfl := Except.ok.inj hc
    exact ⟨h, le_rfl⟩
  | .power f, c, h, hc => f.reduce_isPolynomial h hc
  | .term t, c, h, hc => t.reduce_isPolynomial h hc
  | .sum [t], c, h, hc => by
    obtain ⟨hc, hle⟩ := t.reduce_isPolynomial h.2.1 hc
    refine ⟨hc, hle.trans ?_⟩
    simp only [Tree.bulk, Term.totalBulk]
    omega

theorem Factor.reduce_isPolynomial : (f : Factor) → {c : Tree} → f.IsPolynomial sums →
    f.reduce = .ok c → c.IsPolynomial sums ∧ c.bulk ≤ f.bulk
  | ⟨base, exponent⟩, c, h, hc => by
    obtain ⟨one, -, hc⟩ := bind_eq_ok.mp hc
    cases one with
    | false =>
      obtain rfl : Tree.power ⟨base, exponent⟩ = c := by simpa using hc
      exact ⟨h, le_rfl⟩
    | true =>
      obtain ⟨hc, hle⟩ := base.reduce_isPolynomial h.1 (by simpa using hc)
      exact ⟨hc, hle.trans (Nat.le_add_left _ _)⟩

theorem Term.reduce_isPolynomial : (t : Term) → {c : Tree} → t.IsPolynomial sums →
    t.reduce = .ok c → c.IsPolynomial sums ∧ c.bulk ≤ t.bulk
  | ⟨multiplier, divisor, [⟨base, exponent⟩], bottom⟩, c, h, hc => by
    have hself : .term ⟨multiplier, divisor, [⟨base, exponent⟩], bottom⟩ = c →
        c.IsPolynomial sums ∧ c.bulk ≤ Term.bulk ⟨multiplier, divisor, [⟨base, exponent⟩], bottom⟩ := by
      rintro rfl
      exact ⟨h, le_rfl⟩
    obtain ⟨hm, -, -, ⟨⟨hbase, -⟩, -⟩, -⟩ := h
    rw [Term.reduce] at hc
    obtain ⟨whole, -, hc⟩ := bind_eq_ok.mp hc
    cases whole with
    | false => exact hself (by simpa using hc)
    | true =>
      obtain ⟨one, -, hc⟩ := bind_eq_ok.mp hc
      cases one with
      | true =>
        obtain rfl : Tree.number multiplier = c := by simpa using hc
        exact ⟨hm, Nat.le_add_right _ _⟩
      | false =>
        simp only [Bool.false_eq_true, if_false] at hc
        split at hc
        · obtain ⟨first, -, hc⟩ := bind_eq_ok.mp hc
          cases first with
          | false => exact hself (by simpa using hc)
          | true =>
            obtain ⟨hc, hle⟩ := base.reduce_isPolynomial hbase (by simpa using hc)
            refine ⟨hc, hle.trans ?_⟩
            simp only [Term.bulk, Factor.totalBulk]
            omega
        · exact hself (by simpa using hc)
  | ⟨_, _, [], _⟩, c, h, hc | ⟨_, _, _ :: _ :: _, _⟩, c, h, hc => by
    rw [Term.reduce] at hc
    · obtain rfl := Except.ok.inj hc
      exact ⟨h, le_rfl⟩
    · simp

end

/-- A polynomial without variables has a whole value. -/
theorem Factor.IsPolynomial.value {f : Factor} {v : Value} (h : f.IsPolynomial sums)
    (hv : f.value? = .ok (some v)) : ∃ z : Int, v = .exact z := by
  have hmeaning := IsPolynomial.meaning (I := ⟨fun _ => 0, fun _ => 0, fun _ _ => none⟩) f h
  refine ⟨MvPolynomial.constantCoeff f.polynomial, ?_⟩
  rw [f.value?_sound hv hmeaning, MvPolynomial.aeval_zero']
  rfl

theorem Term.scale_isPolynomial {t u : Term} {z : Int} (h : t.IsPolynomial sums)
    (hu : t.scale (.exact z) = .ok u) :
    u.IsPolynomial sums ∧ u.polynomial = t.polynomial * C z ∧ u.bulk = t.bulk := by
  obtain ⟨⟨m, hm⟩, hd, hne, htop, hbottom⟩ := isPolynomial_iff.mp h
  obtain rfl : { t with multiplier := .exact ((m * z : Int) : Rat) } = u := by
    simpa [scale, hm, Value.mul_exact] using hu
  refine ⟨isPolynomial_iff.mpr ⟨⟨_, rfl⟩, hd, hne, htop, hbottom⟩, ?_, ?_⟩
  · rw [polynomial_eq rfl, polynomial_eq hm, map_mul]
    ring
  · rw [bulk_eq, bulk_eq]

theorem Term.opposite_isPolynomial {t : Term} {o : Tree} (h : t.IsPolynomial sums)
    (ho : (do (← t.scale .negativeOne).reduce : Except Fault Tree) = .ok o) :
    o.IsPolynomial sums ∧ o.bulk ≤ t.bulk := by
  obtain ⟨u, hu, ho⟩ := bind_eq_ok.mp ho
  have hnegative : Value.negativeOne = .exact ((-1 : Int) : Rat) := by simp [Value.negativeOne]
  rw [hnegative] at hu
  obtain ⟨hpolynomial, -, hbulk⟩ := scale_isPolynomial h hu
  obtain ⟨ho, hle⟩ := u.reduce_isPolynomial hpolynomial ho
  exact ⟨ho, hle.trans hbulk.le⟩

theorem Term.isPolynomial_ofSide {z : Int} {fs : List Factor}
    (h : ∀ f ∈ fs, f.IsPolynomial sums) :
    (⟨.exact z, .one, side fs, side []⟩ : Term).IsPolynomial sums := by
  refine isPolynomial_iff.mpr ⟨⟨z, rfl⟩, rfl, side_ne_nil fs, ?_, rfl⟩
  cases fs with
  | nil => exact List.forall_mem_singleton.mpr Factor.isPolynomial_placeholder
  | cons f fs => exact h

theorem Tree.absorb_isPolynomial : (base : Tree) → {exponent : Tree} → {z : Int} → {v : Value} →
    {kept : Option Factor} → (⟨base, exponent⟩ : Factor).IsPolynomial sums →
    base.absorb exponent (.exact z) = .ok (v, kept) →
    (∃ z' : Int, v = .exact z') ∧
      ∀ f ∈ kept.toList, f.IsPolynomial sums ∧ f.base.bulk ≤ base.bulk := by
  intro base exponent z v kept h hv
  rcases absorb_cases hv with ⟨-, rfl, rfl⟩ | ⟨w, hw, hv, rfl⟩ | ⟨rfl, rfl, -⟩ |
    ⟨hone, hc, o, ho, rfl, -⟩
  · exact ⟨⟨z, rfl⟩, by simp⟩
  · obtain ⟨w, rfl⟩ := h.value hw
    rw [Value.mul_exact] at hv
    exact ⟨⟨z * w, by rw [← Except.ok.inj hv, Int.cast_mul]⟩, by simp⟩
  · exact ⟨⟨z, rfl⟩, by simpa using h⟩
  · have hopposite : o.IsPolynomial sums ∧ o.bulk ≤ base.bulk := by
      obtain ⟨hbase, -⟩ := h
      cases base with
      | number w =>
        obtain ⟨w', hw', rfl⟩ := ho
        obtain ⟨m, rfl⟩ := hbase
        obtain rfl : Value.exact ((m * -1 : Int) : Rat) = w' := by
          simpa [Value.negativeOne, Value.mul_exact] using hw'
        exact ⟨⟨_, rfl⟩, le_rfl⟩
      | power f =>
        obtain ⟨b, e⟩ := f
        obtain ⟨k, kept, hkept, ho⟩ := ho
        have hcoefficient : Value.one = .exact ((1 : Int) : Rat) := by simp [Value.one]
        rw [hcoefficient] at hkept
        obtain ⟨⟨k', rfl⟩, hstays⟩ := b.absorb_isPolynomial hbase hkept
        obtain ⟨ho, hle⟩ :=
          Term.opposite_isPolynomial (Term.isPolynomial_ofSide fun f hf => (hstays f hf).1) ho
        refine ⟨ho, hle.trans ?_⟩
        have hpos := b.bulk_pos
        cases kept with
        | none => exact Nat.add_le_add_left hpos 1
        | some g =>
          have hg : g.base.bulk ≤ b.bulk := (hstays g (by simp)).2
          simpa [Term.bulk, Term.side, bulk, Factor.bulk] using hg
      | term t => exact Term.opposite_isPolynomial hbase ho
      | _ => exact ho.elim
    have hfirst : (⟨o, .one⟩ : Factor).IsPolynomial sums :=
      ⟨hopposite.1, 1, whole_one.symm, .inl (by decide)⟩
    have hsign : (Value.exact z).mul .negativeOne = .ok (.exact ((z * -1 : Int) : Rat)) := by
      simp [Value.negativeOne, Value.mul_exact]
    exact ⟨⟨z * -1, Except.ok.inj (hc.symm.trans hsign)⟩, by simpa using ⟨hfirst, hopposite.2⟩⟩

theorem Factor.product?_placeholders {I : Interpretation} {fs : List Factor}
    (h : ∀ f ∈ fs, f = placeholder) : product? I fs = some 1 := by
  have hone : placeholder.meaning? I = some 1 :=
    (product?_singleton placeholder).symm.trans (product?_side [])
  induction fs with
  | nil => rfl
  | cons f fs ih =>
    obtain ⟨rfl, hfs⟩ := List.forall_mem_cons.mp h
    exact product?_cons_eq_some.mpr ⟨1, 1, hone, ih hfs, (mul_one 1).symm⟩

namespace Term

theorem collect_isPolynomial {fs kept : List Factor} {z : Int} {v : Value}
    (h : ∀ f ∈ fs, f.IsPolynomial sums) (hv : collect (.exact z) fs = .ok (v, kept)) :
    (∃ z' : Int, v = .exact z') ∧ (∀ f ∈ kept, f.IsPolynomial sums) ∧
      Factor.totalBulk kept ≤ Factor.totalBulk fs := by
  induction fs generalizing z kept with
  | nil =>
    obtain ⟨rfl, rfl⟩ := Prod.mk.inj (Except.ok.inj hv)
    exact ⟨⟨z, rfl⟩, h, le_rfl⟩
  | cons f fs ih =>
    obtain ⟨hf, hfs⟩ := List.forall_mem_cons.mp h
    obtain ⟨base, exponent⟩ := f
    obtain ⟨w, stays, rest, hw, hrest, rfl⟩ := collect_cons_eq_ok.mp hv
    obtain ⟨⟨z', rfl⟩, hstays⟩ := base.absorb_isPolynomial hf hw
    obtain ⟨hv', hkept, hle⟩ := ih hfs hrest
    refine ⟨hv', fun g hg => (List.mem_append.mp hg).elim (fun hg => (hstays g hg).1) (hkept g), ?_⟩
    have hbulk : Factor.totalBulk stays.toList ≤ base.bulk := by
      cases stays with
      | none => exact Nat.zero_le _
      | some g => simpa using (hstays g (by simp)).2
    rw [Factor.totalBulk_append, Factor.totalBulk_cons]
    exact Nat.add_le_add hbulk hle

theorem of_isPolynomial {z : Int} {top bottom : List Factor} {t : Term} {bulk : Nat}
    (h : of (.exact z) .one top bottom = .ok t) (htop : ∀ f ∈ top, f.IsPolynomial sums)
    (hbottom : ∀ f ∈ bottom, f = .placeholder) (hpos : 1 ≤ bulk)
    (hbulk : Factor.totalBulk top ≤ bulk) :
    t.IsPolynomial sums ∧ t.polynomial = C z * Factor.productPolynomial top ∧
      t.bulk ≤ 1 + bulk := by
  have hmeaning := h
  rw [of, collect_placeholders _ hbottom] at h
  obtain ⟨⟨v, kept⟩, hcollect, h⟩ := bind_eq_ok.mp h
  obtain rfl := Except.ok.inj h
  obtain ⟨⟨z', rfl⟩, hkept, hle⟩ := collect_isPolynomial htop hcollect
  have hpolynomial := isPolynomial_ofSide (z := z') hkept
  refine ⟨hpolynomial, hpolynomial.polynomial_eq fun I => ?_, ?_⟩
  · have hone := Factor.product?_placeholders (I := I) hbottom
    refine (of_meaning hmeaning (Factor.AllPolynomial.product top
      (Factor.allPolynomial_iff.mpr htop)) hone one_ne_zero one_ne_zero).trans ?_
    simp
  · cases kept with
    | nil => exact Nat.add_le_add_left hpos 1
    | cons g kept => exact Nat.add_le_add_left (hle.trans hbulk) 1

theorem ofFactor_isPolynomial {f : Factor} {t : Term} (h : ofFactor f = .ok t)
    (hf : f.IsPolynomial sums) :
    t.IsPolynomial sums ∧ t.polynomial = f.polynomial ∧ t.bulk ≤ 1 + f.base.bulk := by
  have hof : of (.exact (1 : Int)) .one [f] [] = .ok t := by
    rw [Int.cast_one]
    exact h
  obtain ⟨hpolynomial, heq, hbulk⟩ := of_isPolynomial hof (List.forall_mem_singleton.mpr hf)
    (by simp) f.base.bulk_pos (by simp)
  exact ⟨hpolynomial, by simpa [Factor.productPolynomial] using heq, hbulk⟩

end Term

theorem Tree.IsPolynomial.toFactor {t : Tree} (h : t.IsPolynomial sums) :
    t.toFactor.IsPolynomial sums ∧ t.toFactor.polynomial = t.polynomial ∧
      t.toFactor.base.bulk ≤ t.bulk := by
  have hfirst : (⟨t, .one⟩ : Factor).IsPolynomial sums ∧
      (⟨t, .one⟩ : Factor).polynomial = t.polynomial ∧ t.bulk ≤ t.bulk := by
    refine ⟨⟨h, 1, whole_one.symm, .inl (by decide)⟩, ?_, le_rfl⟩
    rw [← whole_one, ← Nat.cast_one, Factor.polynomial_whole, pow_one]
  cases t with
  | power f =>
    obtain ⟨base, exponent⟩ := f
    exact ⟨h, rfl, Nat.le_add_left _ _⟩
  | _ => exact hfirst

namespace Term

variable {s t u : Term}

theorem IsPolynomial.mul_coefficients (hs : s.IsPolynomial sums) (ht : t.IsPolynomial sums) :
    ∃ y z : Int, s.multiplier = .exact y ∧ t.multiplier = .exact z ∧
      s.multiplier.mul t.multiplier = .ok (.exact (y * z : Int)) ∧
      s.divisor.mul t.divisor = .ok .one := by
  obtain ⟨⟨y, hy⟩, hd, -⟩ := isPolynomial_iff.mp hs
  obtain ⟨⟨z, hz⟩, hd', -⟩ := isPolynomial_iff.mp ht
  refine ⟨y, z, hy, hz, ?_, ?_⟩
  · rw [hy, hz, Value.mul_exact, Int.cast_mul]
  · rw [hd, hd', Value.one, Value.mul_exact, mul_one]

theorem mul_isPolynomial (hs : s.IsPolynomial sums) (ht : t.IsPolynomial sums)
    (h : s.mul t = .ok u) :
    u.IsPolynomial sums ∧ u.polynomial = s.polynomial * t.polynomial ∧ u.bulk ≤ s.bulk + t.bulk := by
  obtain ⟨y, z, hy, hz, hm, hd⟩ := hs.mul_coefficients ht
  obtain ⟨-, -, hne, htop, hbottom⟩ := isPolynomial_iff.mp hs
  obtain ⟨-, -, -, htop', hbottom'⟩ := isPolynomial_iff.mp ht
  simp only [mul, hm, hd, ok_bind, hbottom, hbottom'] at h
  have hpos : 1 ≤ Factor.totalBulk (s.top ++ t.top) :=
    Factor.totalBulk_pos (List.append_ne_nil_of_left_ne_nil hne _)
  obtain ⟨hu, heq, hbulk⟩ := of_isPolynomial h
    (fun f hf => (List.mem_append.mp hf).elim (htop f) (htop' f)) (by simp) hpos le_rfl
  refine ⟨hu, ?_, hbulk.trans ?_⟩
  · rw [heq, polynomial_eq hy, polynomial_eq hz, Factor.productPolynomial_append, map_mul]
    ring
  · rw [Factor.totalBulk_append, s.bulk_eq, t.bulk_eq]
    omega

theorem times_isPolynomial {p : Tree} (hs : s.IsPolynomial sums) (hp : p.IsPolynomial sums)
    (h : s.times p = .ok u) :
    u.IsPolynomial sums ∧ u.polynomial = s.polynomial * p.polynomial ∧ u.bulk ≤ s.bulk + p.bulk := by
  have hfactor : of s.multiplier s.divisor (s.top ++ [p.toFactor]) s.bottom = .ok u →
      u.IsPolynomial sums ∧ u.polynomial = s.polynomial * p.polynomial ∧
        u.bulk ≤ s.bulk + p.bulk := by
    intro h
    obtain ⟨⟨z, hz⟩, hd, hne, htop, hbottom⟩ := isPolynomial_iff.mp hs
    obtain ⟨hf, hfp, hfbulk⟩ := hp.toFactor
    rw [hz, hd, hbottom] at h
    have hall : ∀ f ∈ s.top ++ [p.toFactor], f.IsPolynomial sums :=
      fun f hf' => (List.mem_append.mp hf').elim (htop f) fun hf' => by
        rwa [List.mem_singleton.mp hf']
    obtain ⟨hu, heq, hbulk⟩ := of_isPolynomial h hall (by simp)
      (Factor.totalBulk_pos (by simp)) le_rfl
    refine ⟨hu, ?_, hbulk.trans ?_⟩
    · rw [heq, polynomial_eq hz, Factor.productPolynomial_append]
      simp only [Factor.productPolynomial, hfp]
      ring
    · rw [Factor.totalBulk_append, Factor.totalBulk_cons, Factor.totalBulk_nil, s.bulk_eq]
      omega
  cases p with
  | number v =>
    obtain ⟨z, rfl⟩ := hp
    obtain ⟨hu, heq, hbulk⟩ := scale_isPolynomial hs h
    refine ⟨hu, ?_, hbulk.le.trans (Nat.le_add_right _ _)⟩
    rw [heq, Tree.polynomial, Tree.wholePart_exact]
  | term t => exact mul_isPolynomial hs hp h
  | _ => exact hfactor h

theorem isPolynomial_ofValue (z : Int) : (ofValue (.exact z)).IsPolynomial sums :=
  isPolynomial_ofSide (by simp)

theorem polynomial_ofValue (z : Int) : (ofValue (.exact z)).polynomial = C z := by
  rw [polynomial_eq rfl, ofValue, Factor.productPolynomial_side, Factor.productPolynomial, mul_one]

theorem fraction_isPolynomial {p : Tree} (hp : p.IsPolynomial sums)
    (h : fraction p .one = .ok u) :
    u.IsPolynomial sums ∧ u.polynomial = p.polynomial ∧ u.bulk ≤ 1 + p.bulk := by
  obtain ⟨hf, hfp, hfbulk⟩ := hp.toFactor
  have hof : of (.exact (1 : Int)) .one [p.toFactor] [.placeholder] = .ok u := by
    rw [Int.cast_one]
    exact h
  obtain ⟨hu, heq, hbulk⟩ := of_isPolynomial hof (List.forall_mem_singleton.mpr hf) (by simp)
    p.bulk_pos (by simpa using hfbulk)
  refine ⟨hu, ?_, hbulk⟩
  rw [heq, ← hfp]
  simp [Factor.productPolynomial]

end Term

namespace Tree

theorem toTerm_isPolynomial {t : Tree} {u : Term} (ht : t.IsPolynomial sums)
    (h : t.toTerm = .ok u) :
    u.IsPolynomial sums ∧ u.polynomial = t.polynomial ∧ u.bulk ≤ 1 + t.bulk := by
  have hnumber : ∀ {s : Tree} {v : Value} {u : Term}, s.IsPolynomial sums → s = .number v →
      Term.ofValue v = u →
      u.IsPolynomial sums ∧ u.bulk ≤ 1 + s.bulk := by
    rintro s v u hs rfl rfl
    obtain ⟨z, rfl⟩ := hs
    exact ⟨Term.isPolynomial_ofValue z, le_rfl⟩
  have hfactor : ∀ {s : Tree} {u : Term}, s.IsPolynomial sums →
      Term.ofFactor s.toFactor = .ok u → u.IsPolynomial sums ∧ u.bulk ≤ 1 + s.bulk := by
    intro s u hs h
    obtain ⟨hf, -, hfbulk⟩ := hs.toFactor
    obtain ⟨hu, -, hbulk⟩ := Term.ofFactor_isPolynomial h hf
    exact ⟨hu, hbulk.trans (Nat.add_le_add_left hfbulk 1)⟩
  have hshape : u.IsPolynomial sums ∧ u.bulk ≤ 1 + t.bulk := by
    cases t with
    | number v => exact hnumber ht rfl (Except.ok.inj h)
    | term t =>
      obtain rfl := Except.ok.inj h
      exact ⟨ht, Nat.le_add_left _ _⟩
    | sum ts =>
      obtain ⟨c, hc, h⟩ := bind_eq_ok.mp h
      obtain ⟨hc, hle⟩ := reduce_isPolynomial _ ht hc
      have hstep : u.IsPolynomial sums ∧ u.bulk ≤ 1 + c.bulk := by
        cases c with
        | number v => exact hnumber hc rfl (Except.ok.inj h)
        | term t =>
          obtain rfl := Except.ok.inj h
          exact ⟨hc, Nat.le_add_left _ _⟩
        | _ => exact hfactor hc h
      exact ⟨hstep.1, hstep.2.trans (Nat.add_le_add_left hle 1)⟩
    | _ => exact hfactor ht h
  exact ⟨hshape.1, hshape.1.polynomial_eq fun I => toTerm_meaning h (IsPolynomial.meaning t ht),
    hshape.2⟩

end Tree

namespace Term

variable {ts ss : List Term}

/-- Terms put in order, or a zero if there are none. -/
theorem summed_isPolynomial (hts : ∀ t ∈ ts, t.IsPolynomial sums) (h : summed ts = .ok ss) :
    (∀ s ∈ ss, s.IsPolynomial sums) ∧ totalPolynomial ss = totalPolynomial ts ∧
      (ts ≠ [] → ss.Perm ts) ∧ ss ≠ [] := by
  have hperm := sorted_perm h
  have hzero : zero.IsPolynomial sums ∧ zero.polynomial = 0 := by
    have hvalue : Value.zero = .exact ((0 : Int) : Rat) := by simp [Value.zero]
    rw [zero, hvalue, polynomial_ofValue, map_zero]
    exact ⟨isPolynomial_ofValue 0, rfl⟩
  cases ts with
  | nil =>
    obtain rfl := List.perm_singleton.mp hperm
    exact ⟨List.forall_mem_singleton.mpr hzero.1, by simp [totalPolynomial, hzero.2], by simp,
      by simp⟩
  | cons t ts =>
    refine ⟨fun s hs => hts s (hperm.mem_iff.mp hs), totalPolynomial_perm hperm, fun _ => hperm, ?_⟩
    rintro rfl
    exact List.cons_ne_nil _ _ (List.nil_perm.mp hperm)

end Term

namespace Tree

theorem summands_isPolynomial {t : Tree} {ts : List Term} (ht : t.IsPolynomial true)
    (h : t.summands = .ok ts) :
    (∀ s ∈ ts, s.IsPolynomial true) ∧ Term.totalPolynomial ts = t.polynomial := by
  have hterm : ∀ {s : Tree}, s.IsPolynomial true →
      (do return [← s.toTerm] : Except Fault (List Term)) = .ok ts →
      ∀ s ∈ ts, s.IsPolynomial true := by
    intro s hs h
    obtain ⟨u, hu, h⟩ := bind_eq_ok.mp h
    obtain rfl := Except.ok.inj h
    exact List.forall_mem_singleton.mpr (toTerm_isPolynomial hs hu).1
  have hall : ∀ s ∈ ts, s.IsPolynomial true := by
    match t with
    | .sum [t] =>
      obtain ⟨zero, -, h⟩ := bind_eq_ok.mp h
      cases zero with
      | true =>
        obtain rfl := Except.ok.inj h
        simp
      | false =>
        obtain rfl := Except.ok.inj h
        exact isPolynomial_sum.mp ht
    | .sum [] | .sum (_ :: _ :: _) =>
      obtain rfl := Except.ok.inj h
      exact isPolynomial_sum.mp ht
    | .number _ | .constant _ | .variable _ | .power _ | .term _ | .call _ _ => exact hterm ht h
  refine ⟨hall, ?_⟩
  exact (isPolynomial_sum.mpr hall).polynomial_eq fun I =>
    summands_meaning h (IsPolynomial.meaning t ht)

end Tree

/-- Polynomial terms share their denominator, which is one. -/
theorem Term.IsPolynomial.withCommonDenominator {s t : Term} (hs : s.IsPolynomial sums)
    (ht : t.IsPolynomial sums) : s.withCommonDenominator t = .ok s := by
  have hmeaning := fun (r : Term) (hr : r.IsPolynomial sums) =>
    IsPolynomial.meaning (I := ⟨fun _ => 0, fun _ => 0, fun _ _ => none⟩) r hr
  obtain ⟨-, hd, -, -, hbottom⟩ := isPolynomial_iff.mp hs
  obtain ⟨-, hd', -, -, hbottom'⟩ := isPolynomial_iff.mp ht
  have hshares : s.sharesDenominator t = true :=
    (sharesDenominator_iff (hmeaning s hs) (hmeaning t ht)).mpr
      ⟨hd.trans hd'.symm, by rw [hbottom, hbottom']⟩
  simp [Term.withCommonDenominator, hshares]

/-- A tree that addition can result in. -/
def Tree.IsTotal : Tree → Prop
  | .number _ | .term _ | .sum _ => True
  | _ => False

theorem Term.add_isPolynomial {s t : Term} {c : Tree} (hs : s.IsPolynomial true)
    (ht : t.IsPolynomial true) (h : s.add t = .ok c) : c.IsPolynomial true ∧ c.IsTotal := by
  obtain ⟨⟨y, hy⟩, hd, hne, htop, hbottom⟩ := isPolynomial_iff.mp hs
  obtain ⟨⟨z, hz⟩, -⟩ := isPolynomial_iff.mp ht
  have hwhole : s.denominatorIsOne = .ok true := by
    simp [denominatorIsOne, hd, hbottom, Value.one, Factor.allOne_placeholder]
  simp only [add, hs.withCommonDenominator ht, ht.withCommonDenominator hs, ok_bind, hwhole,
    if_true] at h
  split at h
  · obtain rfl : Tree.term { s with multiplier := .exact ((y + z : Int) : Rat) } = c := by
      simpa [hy, hz, Value.add_exact] using h
    exact ⟨isPolynomial_iff.mpr ⟨⟨y + z, rfl⟩, hd, hne, htop, hbottom⟩, trivial⟩
  · obtain ⟨us, hus, h⟩ := bind_eq_ok.mp h
    obtain rfl := Except.ok.inj h
    have hpair : ∀ r ∈ [s, t], r.IsPolynomial true := by simp [hs, ht]
    exact ⟨Tree.isPolynomial_sum.mpr (summed_isPolynomial hpair hus).1, trivial⟩

namespace Tree

variable {s t c : Tree}

theorem sumOf_isPolynomial (hs : s.IsPolynomial true) (ht : t.IsPolynomial true)
    (h : sumOf [s, t] = .ok c) : c.IsPolynomial true ∧ c.IsTotal := by
  obtain ⟨us, hus, h⟩ := bind_eq_ok.mp h
  obtain ⟨ss, hss, h⟩ := bind_eq_ok.mp h
  obtain rfl := Except.ok.inj h
  have hall : ∀ u ∈ us, u.IsPolynomial true := by
    intro u hu
    obtain ⟨r, hr, hru⟩ := mem_mapM hus hu
    have hpolynomial : r.IsPolynomial true := by
      rcases List.mem_pair.mp hr with rfl | rfl
      · exact hs
      · exact ht
    exact (toTerm_isPolynomial hpolynomial hru).1
  exact ⟨isPolynomial_sum.mpr (Term.summed_isPolynomial hall hss).1, trivial⟩

theorem add_isPolynomial (hs : s.IsPolynomial true) (ht : t.IsPolynomial true)
    (h : s.add t = .ok c) :
    c.IsPolynomial true ∧ c.IsTotal ∧ c.polynomial = s.polynomial + t.polynomial := by
  have hmixed : (do
      if s.isSum || t.isSum then
        return sum (← Term.summed ((← s.summands) ++ (← t.summands)))
      else if s.isTerm || t.isTerm then sumOf [s, t]
      else (← s.toTerm).add (← t.toTerm) : Except Fault Tree) = .ok c →
      c.IsPolynomial true ∧ c.IsTotal := by
    intro h
    split at h
    · obtain ⟨ss, hss, h⟩ := bind_eq_ok.mp h
      obtain ⟨ts, hts, h⟩ := bind_eq_ok.mp h
      obtain ⟨us, hus, h⟩ := bind_eq_ok.mp h
      obtain rfl := Except.ok.inj h
      have hall : ∀ r ∈ ss ++ ts, r.IsPolynomial true := fun r hr =>
        (List.mem_append.mp hr).elim ((summands_isPolynomial hs hss).1 r)
          ((summands_isPolynomial ht hts).1 r)
      exact ⟨isPolynomial_sum.mpr (Term.summed_isPolynomial hall hus).1, trivial⟩
    · split at h
      · exact sumOf_isPolynomial hs ht h
      · obtain ⟨u, hu, h⟩ := bind_eq_ok.mp h
        obtain ⟨v, hv, h⟩ := bind_eq_ok.mp h
        exact Term.add_isPolynomial (toTerm_isPolynomial hs hu).1 (toTerm_isPolynomial ht hv).1 h
  have hshape : c.IsPolynomial true ∧ c.IsTotal := by
    have hadd := h
    unfold add at hadd
    split at hadd
    · obtain ⟨y, rfl⟩ := hs
      obtain ⟨z, rfl⟩ := ht
      obtain rfl : number (.exact (y + z)) = c := Except.ok.inj hadd
      exact ⟨⟨y + z, by rw [Int.cast_add]⟩, trivial⟩
    · exact Term.add_isPolynomial hs ht hadd
    · exact hmixed hadd
  refine ⟨hshape.1, hshape.2, hshape.1.polynomial_eq fun I => ?_⟩
  rw [map_add]
  exact add_meaning h (IsPolynomial.meaning s hs) (IsPolynomial.meaning t ht)

theorem multiply_isPolynomial (hs : s.IsPolynomial true) (ht : t.IsPolynomial true)
    (h : s.multiply t = .ok c) :
    c.IsPolynomial true ∧ c.polynomial = s.polynomial * t.polynomial := by
  have hshape : c.IsPolynomial true := by
    have hmultiply := h
    unfold multiply at hmultiply
    split at hmultiply
    · obtain ⟨y, rfl⟩ := hs
      obtain ⟨z, rfl⟩ := ht
      obtain rfl : number (.exact (y * z)) = c := Except.ok.inj hmultiply
      exact ⟨y * z, by rw [Int.cast_mul]⟩
    · next ts =>
      obtain ⟨r, hr, hmultiply⟩ := bind_eq_ok.mp hmultiply
      have hr' := (reduce_isPolynomial _ ht hr).1
      split at hmultiply
      · obtain ⟨u, hu, hmultiply⟩ := bind_eq_ok.mp hmultiply
        obtain rfl := Except.ok.inj hmultiply
        exact (Term.times_isPolynomial hr' hs hu).1
      · obtain ⟨u, hu, hmultiply⟩ := bind_eq_ok.mp hmultiply
        obtain rfl := Except.ok.inj hmultiply
        have hfactors : ∀ f ∈ [⟨.sum ts, .one⟩, r.toFactor], f.IsPolynomial true :=
          List.forall_mem_cons.mpr ⟨hs.toFactor.1, List.forall_mem_singleton.mpr hr'.toFactor.1⟩
        have hof : Term.of (.exact (1 : Int)) .one [⟨.sum ts, .one⟩, r.toFactor] [] = .ok u := by
          rw [Int.cast_one]
          exact hu
        exact (Term.of_isPolynomial hof hfactors (by simp) (Factor.totalBulk_pos (by simp))
          le_rfl).1
    · obtain ⟨u, hu, hmultiply⟩ := bind_eq_ok.mp hmultiply
      obtain ⟨v, hv, hmultiply⟩ := bind_eq_ok.mp hmultiply
      obtain rfl := Except.ok.inj hmultiply
      exact (Term.times_isPolynomial (toTerm_isPolynomial hs hu).1 ht hv).1
  refine ⟨hshape, hshape.polynomial_eq fun I => ?_⟩
  rw [map_mul]
  exact multiply_meaning h (IsPolynomial.meaning s hs) (IsPolynomial.meaning t ht)

theorem negate_isPolynomial (ht : t.IsPolynomial true) (h : t.negate = .ok c) :
    c.IsPolynomial true ∧ c.polynomial = -t.polynomial := by
  have hone : negativeOne.IsPolynomial true := ⟨-1, by simp [Value.negativeOne]⟩
  obtain ⟨hc, -⟩ := multiply_isPolynomial ht hone h
  refine ⟨hc, hc.polynomial_eq fun I => ?_⟩
  rw [map_neg]
  exact negate_meaning h (IsPolynomial.meaning t ht)

end Tree

end SymbolicAlgebra
