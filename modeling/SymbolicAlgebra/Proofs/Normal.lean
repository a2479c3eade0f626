import SymbolicAlgebra.Proofs.Degree
import SymbolicAlgebra.Proofs.Outcome
import SymbolicAlgebra.Proofs.Predicate
import SymbolicAlgebra.Tree.Construction

/-!
# Normal trees

A tree is normal if the factors of its terms are whole powers of atoms other than the zeroth, with
the placeholder where a side has none, if its sums have two terms at least and if nothing in it is a
bare power. Canonical forms are normal. The predicates never fail on normal trees, and a normal tree
fits with the degree that counts every sum.
-/

namespace SymbolicAlgebra

open Outcome

/-- A tree that can be the base of a factor in a normal term. -/
def Tree.IsAtom : Tree → Prop
  | .constant _ | .variable _ | .sum _ | .call .. => True
  | _ => False

mutual

def Tree.Normal : Tree → Prop
  | .number v => v.isExact = true
  | .constant _ | .variable _ => True
  | .power _ => False
  | .term t => t.Normal
  | .sum terms => 2 ≤ terms.length ∧ Term.AllNormal terms
  | .call _ args => Tree.AllNormal args ∧ ∀ a ∈ args, a.degree 1 ≤ Value.maxExactExponent

/-- A whole power of an atom, not the zeroth. -/
def Factor.Normal : Factor → Prop
  | ⟨base, exponent⟩ => base.IsAtom ∧ base.Normal ∧ ∃ n : Int, n ≠ 0 ∧ exponent = .whole n

def Term.Normal : Term → Prop
  | ⟨multiplier, divisor, top, bottom⟩ =>
    multiplier.isExact = true ∧ divisor.isExact = true ∧
      (top = [.placeholder] ∨ top ≠ [] ∧ Factor.AllNormal top) ∧
      (bottom = [.placeholder] ∨ bottom ≠ [] ∧ Factor.AllNormal bottom)

def Factor.AllNormal : List Factor → Prop
  | [] => True
  | f :: rest => f.Normal ∧ Factor.AllNormal rest

def Term.AllNormal : List Term → Prop
  | [] => True
  | t :: rest => t.Normal ∧ Term.AllNormal rest

def Tree.AllNormal : List Tree → Prop
  | [] => True
  | t :: rest => t.Normal ∧ Tree.AllNormal rest

end

theorem Factor.allNormal_iff {fs : List Factor} : AllNormal fs ↔ ∀ f ∈ fs, f.Normal := by
  induction fs with
  | nil => simp [AllNormal]
  | cons f fs ih => simp [AllNormal, ih]

theorem Term.allNormal_iff {ts : List Term} : AllNormal ts ↔ ∀ t ∈ ts, t.Normal := by
  induction ts with
  | nil => simp [AllNormal]
  | cons t ts ih => simp [AllNormal, ih]

theorem Tree.allNormal_iff {ts : List Tree} : AllNormal ts ↔ ∀ t ∈ ts, t.Normal := by
  induction ts with
  | nil => simp [AllNormal]
  | cons t ts ih => simp [AllNormal, ih]

/-- A side of a normal term. -/
def Factor.NormalSide (fs : List Factor) : Prop :=
  fs = [placeholder] ∨ fs ≠ [] ∧ ∀ f ∈ fs, f.Normal

theorem Term.normal_iff {t : Term} :
    t.Normal ↔ (∃ m, t.multiplier = .exact m) ∧ (∃ d, t.divisor = .exact d) ∧
      Factor.NormalSide t.top ∧ Factor.NormalSide t.bottom := by
  obtain ⟨m, d, top, bottom⟩ := t
  have hexact : ∀ v : Value, v.isExact = true ↔ ∃ q, v = .exact q := by
    intro v
    cases v <;> simp [Value.isExact]
  simp [Term.Normal, Factor.NormalSide, Factor.allNormal_iff, hexact]

theorem Factor.normalSide_side {fs : List Factor} (h : ∀ f ∈ fs, f.Normal) :
    NormalSide (Term.side fs) := by
  cases fs with
  | nil => exact .inl rfl
  | cons f fs => exact .inr ⟨by simp [Term.side], h⟩

theorem Factor.normal_iff {f : Factor} :
    f.Normal ↔ f.base.IsAtom ∧ f.base.Normal ∧ ∃ n : Int, n ≠ 0 ∧ f.exponent = .whole n := by
  cases f
  rfl

namespace Tree

@[simp] theorem plainValue?_whole (n : Int) : (whole n).plainValue? = .ok (some (.exact n)) := rfl

@[simp] theorem isZero_whole (n : Int) : (whole n).isZero = .ok (decide (n = 0)) := by
  simp [whole, isZero]

@[simp] theorem isOne_whole (n : Int) : (whole n).isOne = .ok (decide (n = 1)) := by
  simp [whole, isOne]

@[simp] theorem meaning?_whole {I : Interpretation} (n : Int) :
    (whole n).meaning? I = some (n : Rat) := rfl

end Tree

@[simp] theorem Factor.isOne_placeholder : Factor.placeholder.isOne = .ok true := by
  simp [placeholder, Factor.isOne, ← Tree.whole_one]

namespace Tree

variable {t : Tree}

theorem IsAtom.plainValue? (h : t.IsAtom) (hn : t.Normal) : t.plainValue? = .ok none := by
  cases t with
  | sum terms =>
    match terms, hn.1 with
    | _ :: _ :: _, _ => rfl
  | number _ | power _ | term _ => exact h.elim
  | _ => rfl

theorem IsAtom.isOne (h : t.IsAtom) (hn : t.Normal) : t.isOne = .ok false := by
  cases t with
  | sum terms =>
    match terms, hn.1 with
    | _ :: _ :: _, _ => rfl
  | number _ | power _ | term _ => exact h.elim
  | _ => rfl

theorem IsAtom.isNegative (h : t.IsAtom) : t.isNegative = .ok false := by
  cases t with
  | number _ | power _ | term _ => exact h.elim
  | _ => rfl

theorem IsAtom.reduce (h : t.IsAtom) (hn : t.Normal) : t.reduce = .ok t := by
  cases t with
  | sum terms =>
    match terms, hn.1 with
    | _ :: _ :: _, _ => rfl
  | number _ | power _ | term _ => exact h.elim
  | _ => rfl

theorem IsAtom.degree_pos (h : t.IsAtom) : 0 < t.degree 1 := by
  cases t with
  | number _ | power _ | term _ => exact h.elim
  | _ => simp [degree]

end Tree

namespace Factor

variable {f : Factor}

theorem Normal.isOne (h : f.Normal) : f.isOne = .ok false := by
  obtain ⟨base, exponent⟩ := f
  obtain ⟨hatom, hbase, n, hn, rfl⟩ := h
  simp [Factor.isOne, hn, hatom.isOne hbase]

theorem Normal.value? (h : f.Normal) : f.value? = .ok none := by
  obtain ⟨base, exponent⟩ := f
  obtain ⟨hatom, hbase, _⟩ := h
  simp [Factor.value?, hatom.plainValue? hbase]

theorem Normal.degree_pos (h : f.Normal) : 0 < f.degree 1 := by
  obtain ⟨base, exponent⟩ := f
  obtain ⟨hatom, _, n, hn, rfl⟩ := h
  simp only [degree, Tree.wholePart_whole]
  exact Nat.mul_pos (Int.natAbs_pos.mpr hn) hatom.degree_pos

theorem degree_placeholder (least : Nat) : placeholder.degree least = 0 := by
  simp [placeholder, degree, Tree.one, Tree.degree]

theorem allOne_placeholder : allOne [placeholder] = .ok true := by simp [allOne]

/-- A side with atoms is not found to be one. -/
theorem NormalSide.allOne {fs : List Factor} (h : NormalSide fs) :
    fs = [placeholder] ∨ Factor.allOne fs = .ok false := by
  refine h.imp_right ?_
  rintro ⟨hne, hfs⟩
  cases fs with
  | nil => exact absurd rfl hne
  | cons f fs => simp [Factor.allOne, (hfs f List.mem_cons_self).isOne]

/-- A side of degree zero has no atoms. -/
theorem NormalSide.eq_placeholder {fs : List Factor} (h : NormalSide fs)
    (hdegree : totalDegree 1 fs = 0) : fs = [placeholder] := by
  rcases h with rfl | ⟨hne, hfs⟩
  · rfl
  · obtain ⟨f, hf⟩ := List.exists_mem_of_ne_nil fs hne
    have hpos := (hfs f hf).degree_pos
    have hle : f.degree 1 ≤ totalDegree 1 fs := degree_le_totalDegree hf
    omega

theorem NormalSide.length_le {fs : List Factor} (h : NormalSide fs) :
    fs.length ≤ totalDegree 1 fs + 1 := by
  rcases h with rfl | ⟨-, hfs⟩
  · simp
  · have hle : fs.length ≤ totalDegree 1 fs := by
      induction fs with
      | nil => simp
      | cons f fs ih =>
        have hpos := (hfs f List.mem_cons_self).degree_pos
        have hrest := ih fun g hg => hfs g (List.mem_cons_of_mem _ hg)
        simp only [List.length_cons, totalDegree]
        omega
    omega

end Factor

theorem Value.div_exact_ok (m d : Rat) : ∃ v, (Value.exact m).div (.exact d) = .ok v := by
  by_cases h : d = 0
  · subst h
    exact ⟨.undefined, div_zero _⟩
  · exact ⟨_, div_exact m h⟩

namespace Term

variable {t : Term}

theorem Normal.plainValue? (h : t.Normal) :
    (t.top = [.placeholder] ∧ t.bottom = [.placeholder] ∧ ∃ v, t.plainValue? = .ok (some v)) ∨
      t.plainValue? = .ok none := by
  obtain ⟨⟨m, hm⟩, ⟨d, hd⟩, htop, hbottom⟩ := normal_iff.mp h
  obtain ⟨multiplier, divisor, top, bottom⟩ := t
  simp only at hm hd htop hbottom
  subst hm hd
  rcases htop.allOne with rfl | htop
  · rcases hbottom.allOne with rfl | hbottom
    · obtain ⟨v, hv⟩ := Value.div_exact_ok m d
      exact .inl ⟨rfl, rfl, v, by simp [Term.plainValue?, Factor.allOne_placeholder, hv]⟩
    · exact .inr (by simp [Term.plainValue?, Factor.allOne_placeholder, hbottom])
  · exact .inr (by simp [Term.plainValue?, htop])

theorem Normal.denominatorIsOne_ok (h : t.Normal) : ∃ b, t.denominatorIsOne = .ok b := by
  obtain ⟨_, _, _, hbottom⟩ := normal_iff.mp h
  unfold denominatorIsOne
  split
  · rcases hbottom.allOne with hplaceholder | hfalse
    · exact ⟨true, by rw [hplaceholder, Factor.allOne_placeholder]⟩
    · exact ⟨false, hfalse⟩
  · exact ⟨false, rfl⟩

end Term

theorem Tree.Normal.plainValue?_ok {t : Tree} (h : t.Normal) : ∃ r, t.plainValue? = .ok r := by
  cases t with
  | number v => exact ⟨some v, rfl⟩
  | power f => exact h.elim
  | term t =>
    rcases Term.Normal.plainValue? h with ⟨_, _, v, hv⟩ | hnone
    · exact ⟨some v, hv⟩
    · exact ⟨none, hnone⟩
  | _ => exact ⟨none, IsAtom.plainValue? trivial h⟩

/-- A normal tree of degree zero is a number. -/
theorem Tree.Normal.isPlain {t : Tree} (h : t.Normal) (hdegree : t.degree 1 = 0) :
    ∃ v, t.plainValue? = .ok (some v) := by
  cases t with
  | number v => exact ⟨v, rfl⟩
  | power f => exact h.elim
  | term t =>
    rcases Term.Normal.plainValue? h with ⟨_, _, hv⟩ | hnone
    · exact hv
    · obtain ⟨⟨m, hm⟩, ⟨d, hd⟩, htop, hbottom⟩ := Term.normal_iff.mp h
      have hsum : t.degree 1 = 0 := hdegree
      rw [t.degree_eq] at hsum
      obtain ⟨multiplier, divisor, top, bottom⟩ := t
      simp only at hm hd htop hbottom hsum
      obtain rfl := htop.eq_placeholder (by omega)
      obtain rfl := hbottom.eq_placeholder (by omega)
      subst hm hd
      obtain ⟨v, hv⟩ := Value.div_exact_ok m d
      exact ⟨v, by simp [Tree.plainValue?, Term.plainValue?, Factor.allOne_placeholder, hv]⟩
  | _ => simp [degree] at hdegree

mutual

theorem Tree.Normal.isZero_ok : (t : Tree) → t.Normal → ∃ b, t.isZero = .ok b
  | .number v, _ => ⟨v.isZero, rfl⟩
  | .constant _, _ => ⟨false, rfl⟩
  | .variable _, _ => ⟨false, rfl⟩
  | .power _, h => h.elim
  | .term t, h => Term.Normal.isZero_ok t h
  | .sum ts, h => Term.AllNormal.allZero_ok ts h.2
  | .call .., _ => ⟨false, rfl⟩

theorem Factor.Normal.isZero_ok : (f : Factor) → f.Normal → ∃ b, f.isZero = .ok b
  | ⟨base, exponent⟩, ⟨_, hbase, n, _, he⟩ => by
    obtain ⟨b, hb⟩ := Tree.Normal.isZero_ok base hbase
    cases b <;> simp [Factor.isZero, he, hb]

theorem Term.Normal.isZero_ok : (t : Term) → t.Normal → ∃ b, t.isZero = .ok b
  | ⟨m, d, top, bottom⟩, ⟨_, _, htop, _⟩ => by
    unfold Term.isZero
    split
    · exact ⟨true, rfl⟩
    · rcases htop with rfl | ⟨_, htop⟩
      · exact ⟨false, by
          simp [Factor.anyZero, Factor.placeholder, Factor.isZero, ← Tree.whole_one]⟩
      · exact Factor.AllNormal.anyZero_ok top htop

theorem Factor.AllNormal.anyZero_ok : (fs : List Factor) → Factor.AllNormal fs →
    ∃ b, Factor.anyZero fs = .ok b
  | [], _ => ⟨false, rfl⟩
  | f :: rest, ⟨hf, hrest⟩ => by
    obtain ⟨b, hb⟩ := Factor.Normal.isZero_ok f hf
    obtain ⟨c, hc⟩ := Factor.AllNormal.anyZero_ok rest hrest
    cases b <;> simp [Factor.anyZero, hb, hc]

theorem Term.AllNormal.allZero_ok : (ts : List Term) → Term.AllNormal ts →
    ∃ b, Term.allZero ts = .ok b
  | [], _ => ⟨true, rfl⟩
  | t :: rest, ⟨ht, hrest⟩ => by
    obtain ⟨b, hb⟩ := Term.Normal.isZero_ok t ht
    obtain ⟨c, hc⟩ := Term.AllNormal.allZero_ok rest hrest
    cases b <;> simp [Term.allZero, hb, hc]

end

namespace Tree

/-- All terms in the tree, at any depth, have the property. -/
def AllTerms (p : Term → Prop) (t : Tree) : Prop := ∀ u, .term u ∈ t.nodes → p u

variable {p : Term → Prop}

theorem allTerms_number (v : Value) : (number v).AllTerms p := by simp [AllTerms, nodes]

theorem allTerms_power {f : Factor} :
    (power f).AllTerms p ↔ f.base.AllTerms p ∧ f.exponent.AllTerms p := by
  obtain ⟨base, exponent⟩ := f
  simp [AllTerms, nodes, Factor.nodes, or_imp, forall_and]

theorem allTerms_term {t : Term} :
    (term t).AllTerms p ↔ p t ∧ ∀ f ∈ t.top ++ t.bottom, (power f).AllTerms p := by
  obtain ⟨m, d, top, bottom⟩ := t
  simp only [AllTerms, nodes, Term.nodes, List.mem_cons, List.mem_append, Factor.mem_nodesOfAll,
    term.injEq]
  constructor
  · refine fun h => ⟨h _ (.inl rfl), fun f hf u hu => h u (.inr ?_)⟩
    exact hf.imp (fun hf => ⟨f, hf, hu⟩) (fun hf => ⟨f, hf, hu⟩)
  · rintro ⟨hself, hfactors⟩ u (rfl | ⟨f, hf, hu⟩ | ⟨f, hf, hu⟩)
    · exact hself
    · exact hfactors f (.inl hf) u hu
    · exact hfactors f (.inr hf) u hu

theorem allTerms_sum {ts : List Term} : (sum ts).AllTerms p ↔ ∀ t ∈ ts, (term t).AllTerms p := by
  simp only [AllTerms, nodes, List.mem_cons, Term.mem_nodesOfAll, reduceCtorEq, false_or]
  constructor
  · exact fun h t ht u hu => h u ⟨t, ht, hu⟩
  · rintro h u ⟨t, ht, hu⟩
    exact h t ht u hu

theorem allTerms_call {f : Function} {args : List Tree} :
    (call f args).AllTerms p ↔ ∀ a ∈ args, a.AllTerms p := by
  simp only [AllTerms, nodes, List.mem_cons, mem_nodesOfAll, reduceCtorEq, false_or]
  constructor
  · exact fun h a ha u hu => h u ⟨a, ha, hu⟩
  · rintro h u ⟨a, ha, hu⟩
    exact h a ha u hu

end Tree

theorem Factor.allTerms_placeholder {p : Term → Prop} : (Tree.power placeholder).AllTerms p :=
  Tree.allTerms_power.mpr ⟨Tree.allTerms_number _, Tree.allTerms_number _⟩

/-- The coefficients are whole numbers without a common divisor, and the second one is positive. -/
def Term.InLowestTerms (t : Term) : Prop :=
  ∃ n d : Int, t.multiplier = .exact n ∧ t.divisor = .exact d ∧ 0 < d ∧ n.gcd d = 1

namespace Tree

abbrev InLowestTerms (t : Tree) : Prop := t.AllTerms Term.InLowestTerms

/-- A normal tree whose terms are in lowest terms. -/
structure IsTidy (t : Tree) : Prop where
  normal : t.Normal
  lowest : t.InLowestTerms

end Tree

variable {width : Nat}

theorem Factor.fits_placeholder (least : Nat) :
    (Tree.power placeholder).Fits least width := by
  refine Tree.fits_power.mpr ⟨?_, ⟨1, by decide, Tree.whole_one.symm⟩, Tree.fits_number _⟩
  exact (degree_placeholder least).trans_le (Nat.zero_le _)

mutual

theorem Tree.Normal.fits (hwidth : Value.maxExactExponent + 2 ≤ width) : (t : Tree) → t.Normal →
    t.degree 1 ≤ Value.maxExactExponent → t.Fits 1 width
  | .number v, _, _ => Tree.fits_number v
  | .constant c, _, _ => Tree.fits_constant c
  | .variable x, _, _ => Tree.fits_variable x
  | .power _, h, _ => h.elim
  | .term t, h, hdegree => Term.Normal.fits hwidth t h hdegree
  | .sum ts, h, hdegree => Tree.fits_sum.mpr ⟨hdegree, Term.AllNormal.fits hwidth ts h.2
      ((Nat.le_max_right _ _).trans hdegree)⟩
  | .call _ args, h, _ => Tree.fits_call.mpr (Tree.AllNormal.fits hwidth args h.1 h.2)

theorem Factor.Normal.fits (hwidth : Value.maxExactExponent + 2 ≤ width) : (f : Factor) →
    f.Normal → f.degree 1 ≤ Value.maxExactExponent → (Tree.power f).Fits 1 width
  | ⟨base, _⟩, ⟨hatom, hbase, n, hn, he⟩, hdegree => by
    subst he
    have hpos : 0 < base.degree 1 := hatom.degree_pos
    have hn' : 0 < n.natAbs := Int.natAbs_pos.mpr hn
    have hdegree' : n.natAbs * base.degree 1 ≤ Value.maxExactExponent := by
      simpa [Factor.degree] using hdegree
    have hexponent : n.natAbs ≤ Value.maxExactExponent :=
      (Nat.le_mul_of_pos_right _ hpos).trans hdegree'
    have hbase' : base.degree 1 ≤ Value.maxExactExponent :=
      (Nat.le_mul_of_pos_left _ hn').trans hdegree'
    exact Tree.fits_power.mpr ⟨hdegree, ⟨n, hexponent, rfl⟩,
      Tree.Normal.fits hwidth base hbase hbase'⟩

theorem Term.Normal.fits (hwidth : Value.maxExactExponent + 2 ≤ width) : (t : Term) →
    t.Normal → t.degree 1 ≤ Value.maxExactExponent → (Tree.term t).Fits 1 width
  | ⟨m, d, top, bottom⟩, ⟨_, _, htop, hbottom⟩, hdegree => by
    have hsum : Factor.totalDegree 1 top + Factor.totalDegree 1 bottom ≤ Value.maxExactExponent := hdegree
    have hside : ∀ fs : List Factor, fs = [.placeholder] ∨ fs ≠ [] ∧ Factor.AllNormal fs →
        Factor.NormalSide fs := fun fs h => h.imp_right (And.imp_right Factor.allNormal_iff.mp)
    have hlength := (hside top htop).length_le
    have hlength' := (hside bottom hbottom).length_le
    have htop' : ∀ f ∈ top, (Tree.power f).Fits 1 width := by
      rcases htop with rfl | ⟨_, htop⟩
      · simpa using Factor.fits_placeholder 1
      · exact Factor.AllNormal.fits hwidth top htop (by omega)
    have hbottom' : ∀ f ∈ bottom, (Tree.power f).Fits 1 width := by
      rcases hbottom with rfl | ⟨_, hbottom⟩
      · simpa using Factor.fits_placeholder 1
      · exact Factor.AllNormal.fits hwidth bottom hbottom (by omega)
    refine Tree.fits_term.mpr ⟨hdegree, ?_, ?_⟩
    · exact (show top.length + bottom.length ≤ width by omega)
    · intro f hf
      exact (List.mem_append.mp hf).elim (htop' f) (hbottom' f)

theorem Factor.AllNormal.fits (hwidth : Value.maxExactExponent + 2 ≤ width) : (fs : List Factor) →
    Factor.AllNormal fs → Factor.totalDegree 1 fs ≤ Value.maxExactExponent →
    ∀ f ∈ fs, (Tree.power f).Fits 1 width
  | [], _, _ => by simp
  | f :: rest, ⟨hf, hrest⟩, hdegree => by
    have hsum : f.degree 1 + Factor.totalDegree 1 rest ≤ Value.maxExactExponent := hdegree
    have hfirst := Factor.Normal.fits hwidth f hf (by omega)
    have hothers := Factor.AllNormal.fits hwidth rest hrest (by omega)
    exact List.forall_mem_cons.mpr ⟨hfirst, hothers⟩

theorem Term.AllNormal.fits (hwidth : Value.maxExactExponent + 2 ≤ width) : (ts : List Term) →
    Term.AllNormal ts → Term.highestDegree 1 ts ≤ Value.maxExactExponent →
    ∀ t ∈ ts, (Tree.term t).Fits 1 width
  | [], _, _ => by simp
  | t :: rest, ⟨ht, hrest⟩, hdegree => by
    obtain ⟨hfirst, hothers⟩ := Nat.max_le.mp hdegree
    exact List.forall_mem_cons.mpr ⟨Term.Normal.fits hwidth t ht hfirst,
      Term.AllNormal.fits hwidth rest hrest hothers⟩

theorem Tree.AllNormal.fits (hwidth : Value.maxExactExponent + 2 ≤ width) : (ts : List Tree) →
    Tree.AllNormal ts → (∀ t ∈ ts, t.degree 1 ≤ Value.maxExactExponent) →
    ∀ t ∈ ts, t.Fits 1 width
  | [], _, _ => by simp
  | t :: rest, ⟨ht, hrest⟩, hdegree => by
    obtain ⟨hfirst, hothers⟩ := List.forall_mem_cons.mp hdegree
    exact List.forall_mem_cons.mpr ⟨Tree.Normal.fits hwidth t ht hfirst,
      Tree.AllNormal.fits hwidth rest hrest hothers⟩

end

/-- A normal term is reduced to itself, to its multiplier or to the only atom in it. -/
theorem Term.Normal.reduce_cases {t : Term} (h : t.Normal) :
    t.reduce = .ok (.term t) ∨
      (∃ m, t = ⟨.exact m, .one, [.placeholder], [.placeholder]⟩ ∧
        t.reduce = .ok (.number (.exact m))) ∨
      ∃ base : Tree, base.IsAtom ∧ base.Normal ∧
        t = ⟨.one, .one, [⟨base, .one⟩], [.placeholder]⟩ ∧ t.reduce = .ok base := by
  obtain ⟨⟨m, hm⟩, ⟨d, hd⟩, htop, hbottom⟩ := normal_iff.mp h
  obtain ⟨multiplier, divisor, top, bottom⟩ := t
  simp only at hm hd htop hbottom
  subst hm hd
  match top, htop with
  | [], htop => simp [Factor.NormalSide] at htop
  | ⟨_, _⟩ :: _ :: _, _ => exact .inl rfl
  | [⟨base, exponent⟩], htop =>
    obtain ⟨b, hb⟩ := h.denominatorIsOne_ok
    cases b with
    | false => exact .inl (by simp [Term.reduce, hb])
    | true =>
      obtain ⟨hd1, hone⟩ : d = 1 ∧ Factor.allOne bottom = .ok true := by
        unfold denominatorIsOne at hb
        split at hb
        · next hd1 => exact ⟨by simpa using hd1, hb⟩
        · simp at hb
      obtain rfl : bottom = [.placeholder] := by
        rcases hbottom.allOne with hplaceholder | hfalse
        · exact hplaceholder
        · simp [hfalse] at hone
      subst hd1
      rcases htop with hplaceholder | ⟨-, hnormal⟩
      · refine .inr (.inl ⟨m, by rw [hplaceholder]; rfl, ?_⟩)
        obtain ⟨rfl, rfl⟩ : base = .one ∧ exponent = .one := by
          simpa [Factor.placeholder] using hplaceholder
        have hone := Factor.isOne_placeholder
        simp only [Factor.placeholder] at hone
        simp [Term.reduce, hb, hone]
      · have hfactor := hnormal _ (List.mem_singleton_self _)
        obtain ⟨hatom, hbase, n, hn, he⟩ := Factor.normal_iff.mp hfactor
        simp only at hatom hbase he
        subst he
        by_cases hm1 : m = 1
        · subst hm1
          by_cases hn1 : n = 1
          · subst hn1
            refine .inr (.inr ⟨base, hatom, hbase, by rw [Tree.whole_one]; rfl, ?_⟩)
            simp [Term.reduce, hb, hfactor.isOne, hatom.reduce hbase]
          · exact .inl (by simp [Term.reduce, hb, hfactor.isOne, hn1])
        · exact .inl (by simp [Term.reduce, hb, hfactor.isOne, hm1])

/-- A term of nothing but an atom is unwrapped to it. -/
theorem Term.reduce_wrapped {c : Tree} (hatom : c.IsAtom) (hnormal : c.Normal) :
    Term.reduce ⟨.one, .one, [⟨c, .one⟩], [.placeholder]⟩ = .ok c := by
  have hfactor : (⟨c, .whole 1⟩ : Factor).Normal := ⟨hatom, hnormal, 1, one_ne_zero, rfl⟩
  have hwhole : denominatorIsOne ⟨.one, .one, [⟨c, .whole 1⟩], [.placeholder]⟩ = .ok true := by
    simp [denominatorIsOne, Value.one, Factor.allOne_placeholder]
  have hone : Value.one.isOne = true := by simp [Value.one]
  rw [← Tree.whole_one, Term.reduce]
  simp [hwhole, hfactor.isOne, hone, hatom.reduce hnormal]

theorem Term.Normal.reduce_inLowestTerms {t : Term} {c : Tree} (h : t.Normal)
    (hlowest : (Tree.term t).InLowestTerms) (hc : t.reduce = .ok c) : c.InLowestTerms := by
  rcases h.reduce_cases with hself | ⟨m, -, hnumber⟩ | ⟨base, -, -, rfl, hbase⟩
  · obtain rfl := Except.ok.inj (hself.symm.trans hc)
    exact hlowest
  · obtain rfl := Except.ok.inj (hnumber.symm.trans hc)
    exact Tree.allTerms_number _
  · obtain rfl := Except.ok.inj (hbase.symm.trans hc)
    have hfactor := (Tree.allTerms_term.mp hlowest).2 _ (List.mem_append_left _ List.mem_cons_self)
    exact (Tree.allTerms_power.mp hfactor).1

end SymbolicAlgebra
