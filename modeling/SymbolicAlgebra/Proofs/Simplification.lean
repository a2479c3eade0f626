import Mathlib.Tactic.Linarith
import SymbolicAlgebra.Proofs.Canonical
import SymbolicAlgebra.Proofs.MoreSteps

/-!
# Simplification preserves meaning

By induction on the number of steps, simplification within steps that suffice for the effort of a
tree keeps its meaning. Since the number of steps is raised until they suffice, `Tree.simplify` and
`Tree.canonical` keep the meaning of every moderate tree.
-/

namespace SymbolicAlgebra

open Outcome

variable {I : Interpretation}

namespace Tree

theorem canonicalWith_succ (n : Nat) (t : Tree) :
    t.canonicalWith (n + 1) = (do (← t.simplifyBy n (canonicalWith n)).reduce) := rfl

theorem canonizes_canonicalWith {width limit : Nat} (hwidth : Value.maxExactExponent + 2 ≤ width)
    {n : Nat} (hn : limit + Term.enoughSteps width limit ≤ n) :
    Canonizes I width limit (canonicalWith n) := by
  induction limit generalizing n with
  | zero =>
    obtain ⟨k, rfl⟩ : ∃ k, n = k + 1 := ⟨n - 1, by unfold Term.enoughSteps at hn; omega⟩
    refine ⟨fun v => rfl, fun {least t q} _ hle => ?_, hwidth⟩
    have hpos := t.effort_pos
    omega
  | succ limit ih =>
    obtain ⟨k, rfl⟩ : ∃ k, n = k + 1 := ⟨n - 1, by omega⟩
    have hmono : Term.enoughSteps width limit ≤ Term.enoughSteps width (limit + 1) :=
      Nat.add_le_add_left (Nat.mul_le_mul_right _ (by omega)) _
    have hcanonical := ih (n := k) (by omega)
    refine ⟨fun v => rfl, fun {least t q} hfits hle hq => ?_, hwidth⟩
    obtain ⟨s, hs, ⟨-, c, hc, hform⟩, -⟩ : ∃ s, t.simplifyBy k (canonicalWith k) = .ok s ∧
        t.SimplifiesTo I least s ∧ s.IsSimple width :=
      simplifyBy_ok hcanonical hfits (by omega) hq (by omega)
    exact ⟨c, by rw [canonicalWith_succ, hs]; exact hc, hform⟩

theorem exists_canonizes {width n : Nat} {t : Tree} (hwidth : Value.maxExactExponent + 2 ≤ width)
    (hn : t.effort + Term.enoughSteps width t.effort ≤ n) :
    ∃ k limit, n = k + 1 ∧ Canonizes I width limit (canonicalWith k) ∧ t.effort ≤ 1 + limit ∧
      Term.enoughSteps width limit ≤ k := by
  have hpos := t.effort_pos
  obtain ⟨e, he⟩ : ∃ e, t.effort = e + 1 := ⟨t.effort - 1, by omega⟩
  have hmono : Term.enoughSteps width e ≤ Term.enoughSteps width t.effort :=
    Nat.add_le_add_left (Nat.mul_le_mul_right _ (by omega)) _
  exact ⟨n - 1, e, by omega, canonizes_canonicalWith hwidth (by omega), by omega, by omega⟩

theorem simplifyWith_ok {width least : Nat} {t : Tree} {q : Rat} {n : Nat}
    (hwidth : Value.maxExactExponent + 2 ≤ width) (hfits : t.Fits least width)
    (hq : t.meaning? I = some q) (hn : t.effort + Term.enoughSteps width t.effort ≤ n) :
    ∃ s, t.simplifyWith n = .ok s ∧ t.SimplifiesTo I least s ∧ s.IsSimple width := by
  obtain ⟨k, limit, rfl, hcanonical, heffort, hsteps⟩ := exists_canonizes (I := I) hwidth hn
  exact simplifyBy_ok hcanonical hfits heffort hq hsteps

end Tree

mutual

theorem Tree.effort_le_size : (t : Tree) → t.effort ≤ t.size
  | .number _ | .constant _ | .variable _ => le_rfl
  | .power f => f.effort_le_size
  | .term t => t.effort_le_size
  | .sum ts => Nat.add_le_add_left (Term.totalEffort_le_sizes ts) 1
  | .call _ args => Nat.add_le_add_left (Tree.totalEffort_le_sizes args) 1

theorem Factor.effort_le_size : (f : Factor) → f.effort ≤ f.size
  | ⟨base, exponent⟩ => by
    have hbase := base.effort_le_size
    simp only [Factor.effort, Factor.size]
    omega

theorem Term.effort_le_size : (t : Term) → t.effort ≤ t.size
  | ⟨_, _, top, bottom⟩ => by
    have htop := Factor.highestEffort_le_sizes top
    have hbottom := Factor.highestEffort_le_sizes bottom
    simp only [Term.effort, Term.size]
    omega

theorem Factor.highestEffort_le_sizes : (fs : List Factor) →
    Factor.highestEffort fs ≤ 1 + Factor.sizes fs
  | [] => le_rfl
  | ⟨base, exponent⟩ :: rest => by
    have hbase := base.effort_le_size
    have hrest := Factor.highestEffort_le_sizes rest
    simp only [Factor.highestEffort, Factor.sizes, Factor.size]
    omega

theorem Term.totalEffort_le_sizes : (ts : List Term) → Term.totalEffort ts ≤ Term.sizes ts
  | [] => le_rfl
  | t :: rest => Nat.add_le_add t.effort_le_size (Term.totalEffort_le_sizes rest)

theorem Tree.totalEffort_le_sizes : (ts : List Tree) → Tree.totalEffort ts ≤ Tree.sizes ts
  | [] => le_rfl
  | t :: rest => Nat.add_le_add t.effort_le_size (Tree.totalEffort_le_sizes rest)

end

mutual

theorem Tree.size_le_of_mem_nodes : (t : Tree) → {s : Tree} → s ∈ t.nodes → s.size ≤ t.size
  | .number _, s, h | .constant _, s, h | .variable _, s, h => by
    rw [List.mem_singleton.mp h]
  | .power f, s, h => f.size_le_of_mem_nodes h
  | .term t, s, h => t.size_le_of_mem_nodes h
  | .sum ts, s, h => by
    rcases List.mem_cons.mp h with rfl | h
    · exact le_rfl
    · exact (Term.size_le_of_mem_nodesOfAll ts h).trans (Nat.le_add_left _ _)
  | .call f args, s, h => by
    rcases List.mem_cons.mp h with rfl | h
    · exact le_rfl
    · exact (Tree.size_le_of_mem_nodesOfAll args h).trans (Nat.le_add_left _ _)

theorem Factor.size_le_of_mem_nodes : (f : Factor) → {s : Tree} → s ∈ f.nodes → s.size ≤ f.size
  | ⟨base, exponent⟩, s, h => by
    simp only [Factor.nodes, List.mem_cons, List.mem_append] at h
    rcases h with rfl | h | h
    · exact le_rfl
    · have hle := base.size_le_of_mem_nodes h
      simp only [Factor.size]
      omega
    · have hle := exponent.size_le_of_mem_nodes h
      simp only [Factor.size]
      omega

theorem Term.size_le_of_mem_nodes : (t : Term) → {s : Tree} → s ∈ t.nodes → s.size ≤ t.size
  | ⟨_, _, top, bottom⟩, s, h => by
    simp only [Term.nodes, List.mem_cons, List.mem_append] at h
    rcases h with rfl | h | h
    · exact le_rfl
    · have hle := Factor.size_le_of_mem_nodesOfAll top h
      simp only [Term.size]
      omega
    · have hle := Factor.size_le_of_mem_nodesOfAll bottom h
      simp only [Term.size]
      omega

theorem Factor.size_le_of_mem_nodesOfAll : (fs : List Factor) → {s : Tree} →
    s ∈ Factor.nodesOfAll fs → s.size ≤ Factor.sizes fs
  | [], s, h => absurd h List.not_mem_nil
  | f :: rest, s, h => by
    rcases List.mem_append.mp h with h | h
    · exact (f.size_le_of_mem_nodes h).trans (Nat.le_add_right _ _)
    · exact (Factor.size_le_of_mem_nodesOfAll rest h).trans (Nat.le_add_left _ _)

theorem Term.size_le_of_mem_nodesOfAll : (ts : List Term) → {s : Tree} →
    s ∈ Term.nodesOfAll ts → s.size ≤ Term.sizes ts
  | [], s, h => absurd h List.not_mem_nil
  | t :: rest, s, h => by
    rcases List.mem_append.mp h with h | h
    · exact (t.size_le_of_mem_nodes h).trans (Nat.le_add_right _ _)
    · exact (Term.size_le_of_mem_nodesOfAll rest h).trans (Nat.le_add_left _ _)

theorem Tree.size_le_of_mem_nodesOfAll : (ts : List Tree) → {s : Tree} →
    s ∈ Tree.nodesOfAll ts → s.size ≤ Tree.sizes ts
  | [], s, h => absurd h List.not_mem_nil
  | t :: rest, s, h => by
    rcases List.mem_append.mp h with h | h
    · exact (t.size_le_of_mem_nodes h).trans (Nat.le_add_right _ _)
    · exact (Tree.size_le_of_mem_nodesOfAll rest h).trans (Nat.le_add_left _ _)

end

theorem Factor.length_le_sizes (fs : List Factor) : fs.length ≤ sizes fs := by
  induction fs with
  | nil => simp
  | cons f fs ih =>
    obtain ⟨base, exponent⟩ := f
    simp only [List.length_cons, sizes, size]
    omega

namespace Tree

theorem width_le_size (t : Tree) : t.width ≤ t.size := by
  cases t with
  | term t =>
    obtain ⟨m, d, top, bottom⟩ := t
    have htop := Factor.length_le_sizes top
    have hbottom := Factor.length_le_sizes bottom
    simp only [width, size, Term.size]
    omega
  | _ => exact Nat.zero_le _

theorem Moderate.fits {t : Tree} (h : t.Moderate) :
    t.Fits 0 (max t.size (Value.maxExactExponent + 2)) := by
  intro s hs
  obtain ⟨hdegree, hwhole⟩ := h s hs
  exact ⟨hdegree, s.width_le_size.trans ((t.size_le_of_mem_nodes hs).trans (Nat.le_max_left _ _)),
    hwhole⟩

/-- Simplification comes to an end within some number of steps. -/
theorem simplify_isSimple {t : Tree} {q : Rat} (h : t.Moderate) (hq : t.meaning? I = some q) :
    ∃ s width, t.simplify = .ok s ∧ t.SimplifiesTo I 0 s ∧ s.IsSimple width := by
  obtain ⟨s, hs, hsimplified, hsimple⟩ := simplifyWith_ok (Nat.le_max_right _ _) h.fits hq le_rfl
  exact ⟨s, _, withinSteps_ok (fun hmn => simplifyWith_approximates hmn t) hs, hsimplified, hsimple⟩

theorem simplify_ok {t : Tree} {q : Rat} (h : t.Moderate) (hq : t.meaning? I = some q) :
    ∃ s, t.simplify = .ok s ∧ t.SimplifiesTo I 0 s := by
  obtain ⟨s, _, hs, hsimplified, -⟩ := simplify_isSimple h hq
  exact ⟨s, hs, hsimplified⟩

/-- The outcome of simplification means what the tree means, and so does its canonical form. -/
theorem simplify_meaning (I : Interpretation) (t : Tree) (q : Rat) (h : t.Moderate)
    (hq : t.meaning? I = some q) :
    ∃ s c, t.simplify = .ok s ∧ s.meaning? I = some q ∧
      t.canonical = .ok c ∧ c.meaning? I = some q := by
  obtain ⟨s, hs, hmeaning, c, hc, hform⟩ := simplify_ok h hq
  exact ⟨s, c, hs, hmeaning.trans hq, by rw [canonical, hs]; exact hc, hform.meaning.trans hq⟩

/-- `x ^ 2 / x` with `x = 3`. -/
theorem simplify_meaning_of_square :
    let I : Interpretation := ⟨fun _ => 3, fun _ => 0, fun _ _ => none⟩
    let t : Tree := .term ⟨.one, .one, [⟨.variable "x", .whole 2⟩], [⟨.variable "x", .whole 1⟩]⟩
    ∃ s c, t.simplify = .ok s ∧ s.meaning? I = some 3 ∧
      t.canonical = .ok c ∧ c.meaning? I = some 3 := by
  intro I t
  have hmoderate : t.Moderate := moderate_term
    (List.forall_mem_singleton.mpr ((moderate_variable "x").power (by decide) (by decide)))
    (List.forall_mem_singleton.mpr ((moderate_variable "x").power (by decide) (by decide)))
    (by decide)
  have hmeaning : t.meaning? I = some 3 := by
    have htop : (⟨.variable "x", .whole 2⟩ : Factor).meaning? I = some (3 ^ (2 : Int)) :=
      Factor.meaning?_whole.mpr ⟨3, rfl, .inl (by norm_num), rfl⟩
    have hbottom : (⟨.variable "x", .whole 1⟩ : Factor).meaning? I = some (3 ^ (1 : Int)) :=
      Factor.meaning?_whole.mpr ⟨3, rfl, .inl (by norm_num), rfl⟩
    exact Term.meaning?_eq_some.mpr ⟨1, 1, _, _, rfl, rfl, (Factor.product?_singleton _).trans htop,
      (Factor.product?_singleton _).trans hbottom, by norm_num, by norm_num, by norm_num⟩
  exact simplify_meaning I t 3 hmoderate hmeaning

end Tree

end SymbolicAlgebra
