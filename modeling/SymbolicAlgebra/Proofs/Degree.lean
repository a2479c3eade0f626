import Mathlib.Algebra.Order.Ring.Int
import Mathlib.Tactic.Ring
import SymbolicAlgebra.Proofs.Meaning
import SymbolicAlgebra.Value.Arithmetic

/-!
# Degree and effort

The degree of a tree bounds the exponents that come up when it is simplified, and its effort bounds
the steps that this takes. `Tree.Fits` collects what simplification needs of a tree: whole
exponents, and degrees at which powers are still computed exactly.
-/

namespace SymbolicAlgebra

/-- A whole number as a tree. -/
def Tree.whole (n : Int) : Tree := .number (.exact n)

/-- The whole number that a tree is; zero for other trees. -/
def Tree.wholePart : Tree → Int
  | .number (.exact q) => q.num
  | _ => 0

@[simp] theorem Tree.wholePart_whole (n : Int) : (whole n).wholePart = n := by
  simp [whole, wholePart]

theorem Tree.whole_inj {m n : Int} : whole m = whole n ↔ m = n := by
  constructor
  · intro h
    rw [← wholePart_whole m, h, wholePart_whole]
  · rintro rfl
    rfl

theorem Tree.whole_one : whole 1 = one := by simp [whole, one, Value.one]

variable (least : Nat)

mutual

/-- The total degree of a tree, where sums have at least the given degree. A number has none, and a
call counts like a variable. -/
def Tree.degree : Tree → Nat
  | .number _ => 0
  | .constant _ | .variable _ | .call _ _ => 1
  | .power f => f.degree
  | .term t => t.degree
  | .sum terms => max least (Term.highestDegree terms)

def Factor.degree : Factor → Nat
  | ⟨base, exponent⟩ => exponent.wholePart.natAbs * base.degree

def Term.degree : Term → Nat
  | ⟨_, _, top, bottom⟩ => Factor.totalDegree top + Factor.totalDegree bottom

def Factor.totalDegree : List Factor → Nat
  | [] => 0
  | f :: rest => f.degree + Factor.totalDegree rest

def Term.highestDegree : List Term → Nat
  | [] => 0
  | t :: rest => max t.degree (Term.highestDegree rest)

end

mutual

/-- A bound on the nesting of a tree that counts the terms of a sum together. Exponents are left
out of it. -/
def Tree.effort : Tree → Nat
  | .number _ | .constant _ | .variable _ => 1
  | .power f => f.effort
  | .term t => t.effort
  | .sum terms => 1 + Term.totalEffort terms
  | .call _ args => 1 + Tree.totalEffort args

def Factor.effort : Factor → Nat
  | ⟨base, _⟩ => 1 + base.effort

def Term.effort : Term → Nat
  | ⟨_, _, top, bottom⟩ => 1 + max (Factor.highestEffort top) (Factor.highestEffort bottom)

/-- The highest effort of a base, that of the placeholder at least. -/
def Factor.highestEffort : List Factor → Nat
  | [] => 1
  | ⟨base, _⟩ :: rest => max base.effort (Factor.highestEffort rest)

def Term.totalEffort : List Term → Nat
  | [] => 0
  | t :: rest => t.effort + Term.totalEffort rest

def Tree.totalEffort : List Tree → Nat
  | [] => 0
  | t :: rest => t.effort + Tree.totalEffort rest

end

def Tree.width : Tree → Nat
  | .term t => t.top.length + t.bottom.length
  | _ => 0

/-- The exponent of a power is a whole number with which powers are computed exactly. -/
def Tree.HasWholeExponent : Tree → Prop
  | .power ⟨_, e⟩ => ∃ n : Int, n.natAbs ≤ Value.maxExactExponent ∧ e = whole n
  | _ => True

/-- All exponents are whole, and no part has a degree beyond the exponents with which powers are
computed exactly. -/
def Tree.Moderate (t : Tree) : Prop :=
  ∀ s ∈ t.nodes, s.degree 0 ≤ Value.maxExactExponent ∧ s.HasWholeExponent

/-- As `Tree.Moderate`, with a least degree of sums and a bound on the number of factors. -/
def Tree.Fits (width : Nat) (t : Tree) : Prop :=
  ∀ s ∈ t.nodes, s.degree least ≤ Value.maxExactExponent ∧ s.width ≤ width ∧ s.HasWholeExponent

variable {least}

theorem Factor.totalDegree_append (fs gs : List Factor) :
    totalDegree least (fs ++ gs) = totalDegree least fs + totalDegree least gs := by
  induction fs with
  | nil => simp [totalDegree]
  | cons f fs ih => simp [totalDegree, ih, Nat.add_assoc]

theorem Factor.totalDegree_perm {fs gs : List Factor} (h : fs.Perm gs) :
    totalDegree least fs = totalDegree least gs := by
  induction h with
  | nil => rfl
  | cons f _ ih => simp [totalDegree, ih]
  | swap f g fs => simp only [totalDegree]; omega
  | trans _ _ ih ih' => rw [ih, ih']

theorem Factor.degree_le_totalDegree {f : Factor} {fs : List Factor} (h : f ∈ fs) :
    f.degree least ≤ totalDegree least fs := by
  induction fs with
  | nil => simp at h
  | cons g fs ih =>
    rcases List.mem_cons.mp h with rfl | h
    · exact Nat.le_add_right _ _
    · exact (ih h).trans (Nat.le_add_left _ _)

theorem Factor.highestEffort_le_iff {fs : List Factor} {n : Nat} :
    highestEffort fs ≤ n ↔ 1 ≤ n ∧ ∀ f ∈ fs, f.base.effort ≤ n := by
  induction fs with
  | nil => simp [highestEffort]
  | cons f fs ih =>
    obtain ⟨base, exponent⟩ := f
    simp [highestEffort, ih, and_left_comm]

theorem Term.effort_eq (t : Term) :
    t.effort = 1 + max (Factor.highestEffort t.top) (Factor.highestEffort t.bottom) := by
  cases t
  rfl

theorem Term.degree_eq (t : Term) :
    t.degree least = Factor.totalDegree least t.top + Factor.totalDegree least t.bottom := by
  cases t
  rfl

theorem Term.highestDegree_le_iff {ts : List Term} {n : Nat} :
    highestDegree least ts ≤ n ↔ ∀ t ∈ ts, t.degree least ≤ n := by
  induction ts with
  | nil => simp [highestDegree]
  | cons t ts ih => simp [highestDegree, ih]

theorem Term.totalEffort_append (ss ts : List Term) :
    totalEffort (ss ++ ts) = totalEffort ss + totalEffort ts := by
  induction ss with
  | nil => simp [totalEffort]
  | cons s ss ih => simp [totalEffort, ih, Nat.add_assoc]

theorem Term.totalEffort_perm {ss ts : List Term} (h : ss.Perm ts) :
    totalEffort ss = totalEffort ts := by
  induction h with
  | nil => rfl
  | cons t _ ih => simp [totalEffort, ih]
  | swap s t ts => simp only [totalEffort]; omega
  | trans _ _ ih ih' => rw [ih, ih']

theorem Tree.effort_le_totalEffort {t : Tree} {ts : List Tree} (h : t ∈ ts) :
    t.effort ≤ totalEffort ts := by
  induction ts with
  | nil => simp at h
  | cons s ts ih =>
    rcases List.mem_cons.mp h with rfl | h
    · exact Nat.le_add_right _ _
    · exact (ih h).trans (Nat.le_add_left _ _)

theorem Term.effort_le_totalEffort {t : Term} {ts : List Term} (h : t ∈ ts) :
    t.effort ≤ totalEffort ts := by
  induction ts with
  | nil => simp at h
  | cons s ts ih =>
    rcases List.mem_cons.mp h with rfl | h
    · exact Nat.le_add_right _ _
    · exact (ih h).trans (Nat.le_add_left _ _)

theorem Term.effort_le_iff {t : Term} {n : Nat} :
    t.effort ≤ 1 + n ↔ 1 ≤ n ∧ ∀ f ∈ t.top ++ t.bottom, f.base.effort ≤ n := by
  rw [t.effort_eq, Nat.add_le_add_iff_left, Nat.max_le, Factor.highestEffort_le_iff,
    Factor.highestEffort_le_iff]
  simp only [List.mem_append]
  constructor
  · rintro ⟨⟨hn, htop⟩, -, hbottom⟩
    exact ⟨hn, fun f hf => hf.elim (htop f) (hbottom f)⟩
  · rintro ⟨hn, h⟩
    exact ⟨⟨hn, fun f hf => h f (.inl hf)⟩, hn, fun f hf => h f (.inr hf)⟩

theorem Term.effort_pos (t : Term) : 0 < t.effort := by rw [t.effort_eq]; omega

theorem Tree.effort_pos (t : Tree) : 0 < t.effort := by
  cases t with
  | power f => cases f; simp [effort, Factor.effort]
  | term t => exact t.effort_pos
  | _ => simp [effort]

theorem Tree.self_mem_nodes (t : Tree) : t ∈ t.nodes := by
  cases t with
  | power f => cases f; simp [nodes, Factor.nodes]
  | term t => cases t; simp [nodes, Term.nodes]
  | _ => simp [nodes]

theorem Factor.mem_nodesOfAll {s : Tree} {fs : List Factor} :
    s ∈ nodesOfAll fs ↔ ∃ f ∈ fs, s ∈ f.nodes := by
  induction fs with
  | nil => simp [nodesOfAll]
  | cons f fs ih => simp [nodesOfAll, ih]

theorem Term.mem_nodesOfAll {s : Tree} {ts : List Term} :
    s ∈ nodesOfAll ts ↔ ∃ t ∈ ts, s ∈ t.nodes := by
  induction ts with
  | nil => simp [nodesOfAll]
  | cons t ts ih => simp [nodesOfAll, ih]

theorem Tree.mem_nodesOfAll {s : Tree} {ts : List Tree} :
    s ∈ nodesOfAll ts ↔ ∃ t ∈ ts, s ∈ t.nodes := by
  induction ts with
  | nil => simp [nodesOfAll]
  | cons t ts ih => simp [nodesOfAll, ih]

namespace Tree

variable {width : Nat}

theorem Fits.degree_le {t : Tree} (h : t.Fits least width) :
    t.degree least ≤ Value.maxExactExponent := (h t t.self_mem_nodes).1

theorem fits_number (v : Value) : (number v).Fits least width := by
  simp [Fits, nodes, degree, Tree.width, HasWholeExponent]

theorem fits_constant (c : Constant) : (constant c).Fits least width := by
  simp [Fits, nodes, degree, Tree.width, HasWholeExponent, Value.maxExactExponent]

theorem fits_variable (name : String) : (Tree.variable name).Fits least width := by
  simp [Fits, nodes, degree, Tree.width, HasWholeExponent, Value.maxExactExponent]

theorem fits_power {b e : Tree} :
    (power ⟨b, e⟩).Fits least width ↔ (power ⟨b, e⟩).degree least ≤ Value.maxExactExponent ∧
      (power ⟨b, e⟩).HasWholeExponent ∧ b.Fits least width := by
  constructor
  · intro h
    obtain ⟨hdegree, _, hwhole⟩ := h _ (self_mem_nodes _)
    exact ⟨hdegree, hwhole, fun s hs => h s (by simp [nodes, Factor.nodes, hs])⟩
  · rintro ⟨hdegree, hwhole, hb⟩ s hs
    simp only [nodes, Factor.nodes, List.mem_cons, List.mem_append] at hs
    rcases hs with rfl | hs | hs
    · exact ⟨hdegree, Nat.zero_le _, hwhole⟩
    · exact hb s hs
    · obtain ⟨n, _, rfl⟩ := hwhole
      exact fits_number _ s hs

theorem fits_term {t : Term} :
    (term t).Fits least width ↔ t.degree least ≤ Value.maxExactExponent ∧
      t.top.length + t.bottom.length ≤ width ∧ ∀ f ∈ t.top ++ t.bottom, (power f).Fits least width := by
  obtain ⟨m, d, top, bottom⟩ := t
  constructor
  · intro h
    obtain ⟨hdegree, hwidth, _⟩ := h _ (self_mem_nodes _)
    refine ⟨hdegree, hwidth, fun f hf s hs => h s ?_⟩
    have hmem : s ∈ Factor.nodesOfAll top ++ Factor.nodesOfAll bottom := by
      rcases List.mem_append.mp hf with hf | hf
      · exact List.mem_append_left _ (Factor.mem_nodesOfAll.mpr ⟨f, hf, hs⟩)
      · exact List.mem_append_right _ (Factor.mem_nodesOfAll.mpr ⟨f, hf, hs⟩)
    exact List.mem_cons_of_mem _ hmem
  · rintro ⟨hdegree, hwidth, hfactors⟩ s hs
    simp only [nodes, Term.nodes, List.mem_cons, List.mem_append, Factor.mem_nodesOfAll] at hs
    rcases hs with rfl | ⟨f, hf, hs⟩ | ⟨f, hf, hs⟩
    · exact ⟨hdegree, hwidth, trivial⟩
    · exact hfactors f (List.mem_append_left _ hf) s hs
    · exact hfactors f (List.mem_append_right _ hf) s hs

theorem fits_sum {ts : List Term} :
    (sum ts).Fits least width ↔ (sum ts).degree least ≤ Value.maxExactExponent ∧
      ∀ t ∈ ts, (term t).Fits least width := by
  constructor
  · intro h
    refine ⟨h.degree_le, fun t ht s hs => h s ?_⟩
    exact List.mem_cons_of_mem _ (Term.mem_nodesOfAll.mpr ⟨t, ht, hs⟩)
  · rintro ⟨hdegree, hterms⟩ s hs
    simp only [nodes, List.mem_cons, Term.mem_nodesOfAll] at hs
    rcases hs with rfl | ⟨t, ht, hs⟩
    · exact ⟨hdegree, Nat.zero_le _, trivial⟩
    · exact hterms t ht s hs

theorem fits_call {f : Function} {args : List Tree} :
    (call f args).Fits least width ↔ ∀ a ∈ args, a.Fits least width := by
  constructor
  · intro h a ha s hs
    exact h s (List.mem_cons_of_mem _ (mem_nodesOfAll.mpr ⟨a, ha, hs⟩))
  · intro h s hs
    simp only [nodes, List.mem_cons, mem_nodesOfAll] at hs
    rcases hs with rfl | ⟨a, ha, hs⟩
    · simp [degree, Tree.width, HasWholeExponent, Value.maxExactExponent]
    · exact h a ha s hs

theorem moderate_number (v : Value) : (number v).Moderate :=
  List.forall_mem_singleton.mpr ⟨Nat.zero_le _, trivial⟩

theorem moderate_variable (name : String) : (Tree.variable name).Moderate :=
  List.forall_mem_singleton.mpr ⟨Nat.one_le_ofNat, trivial⟩

theorem Moderate.power {b : Tree} {n : Int} (hb : b.Moderate)
    (hn : n.natAbs ≤ Value.maxExactExponent)
    (hdegree : n.natAbs * b.degree 0 ≤ Value.maxExactExponent) :
    (Tree.power ⟨b, whole n⟩).Moderate := by
  rw [← wholePart_whole n] at hdegree
  exact List.forall_mem_cons.mpr ⟨⟨hdegree, n, hn, rfl⟩,
    List.forall_mem_append.mpr ⟨hb, moderate_number _⟩⟩

theorem Moderate.first {b : Tree} (hb : b.Moderate) : (Tree.power ⟨b, .one⟩).Moderate := by
  rw [← whole_one]
  exact hb.power (by decide) (by simpa using (hb b b.self_mem_nodes).1)

theorem moderate_placeholder : (Tree.power .placeholder).Moderate := (moderate_number _).first

theorem moderate_term {t : Term} (htop : ∀ f ∈ t.top, (Tree.power f).Moderate)
    (hbottom : ∀ f ∈ t.bottom, (Tree.power f).Moderate)
    (hdegree : t.degree 0 ≤ Value.maxExactExponent) : (Tree.term t).Moderate := by
  obtain ⟨m, d, top, bottom⟩ := t
  refine List.forall_mem_cons.mpr ⟨⟨hdegree, trivial⟩, List.forall_mem_append.mpr ⟨?_, ?_⟩⟩
  · intro s hs
    obtain ⟨f, hf, hs⟩ := Factor.mem_nodesOfAll.mp hs
    exact htop f hf s hs
  · intro s hs
    obtain ⟨f, hf, hs⟩ := Factor.mem_nodesOfAll.mp hs
    exact hbottom f hf s hs

theorem moderate_sum {ts : List Term} (h : ∀ t ∈ ts, (Tree.term t).Moderate) :
    (Tree.sum ts).Moderate := by
  have hdegree : Term.highestDegree 0 ts ≤ Value.maxExactExponent :=
    Term.highestDegree_le_iff.mpr fun t ht => (h t ht _ (self_mem_nodes _)).1
  refine List.forall_mem_cons.mpr ⟨⟨Nat.max_le.mpr ⟨Nat.zero_le _, hdegree⟩, trivial⟩, ?_⟩
  intro s hs
  obtain ⟨t, ht, hs⟩ := Term.mem_nodesOfAll.mp hs
  exact h t ht s hs

end Tree

mutual

theorem Tree.degree_mono {m n : Nat} (hmn : m ≤ n) : (t : Tree) → t.degree m ≤ t.degree n
  | .number _ | .constant _ | .variable _ | .call .. => le_rfl
  | .power f => f.degree_mono hmn
  | .term t => t.degree_mono hmn
  | .sum ts => max_le_max hmn (Term.highestDegree_mono hmn ts)

theorem Factor.degree_mono {m n : Nat} (hmn : m ≤ n) : (f : Factor) → f.degree m ≤ f.degree n
  | ⟨base, _⟩ => Nat.mul_le_mul_left _ (base.degree_mono hmn)

theorem Term.degree_mono {m n : Nat} (hmn : m ≤ n) : (t : Term) → t.degree m ≤ t.degree n
  | ⟨_, _, top, bottom⟩ =>
    Nat.add_le_add (Factor.totalDegree_mono hmn top) (Factor.totalDegree_mono hmn bottom)

theorem Factor.totalDegree_mono {m n : Nat} (hmn : m ≤ n) : (fs : List Factor) →
    Factor.totalDegree m fs ≤ Factor.totalDegree n fs
  | [] => le_rfl
  | f :: rest => Nat.add_le_add (f.degree_mono hmn) (Factor.totalDegree_mono hmn rest)

theorem Term.highestDegree_mono {m n : Nat} (hmn : m ≤ n) : (ts : List Term) →
    Term.highestDegree m ts ≤ Term.highestDegree n ts
  | [] => le_rfl
  | t :: rest => max_le_max (t.degree_mono hmn) (Term.highestDegree_mono hmn rest)

end

theorem Tree.Fits.mono {least least' width width' : Nat} {t : Tree} (h : t.Fits least width)
    (hleast : least' ≤ least) (hwidth : width ≤ width') : t.Fits least' width' := by
  intro s hs
  obtain ⟨hdegree, hslim, hwhole⟩ := h s hs
  exact ⟨(s.degree_mono hleast).trans hdegree, hslim.trans hwidth, hwhole⟩

end SymbolicAlgebra
