import SymbolicAlgebra.Evaluate
import SymbolicAlgebra.Expand
import SymbolicAlgebra.Proofs.Outcome

/-!
# More steps

An outcome approximates another if it is the other one or says that the steps did not suffice. What
simplification, evaluation or expansion comes to within some steps approximates what it comes to
within more, so that an outcome other than `exhausted` is final: `withinSteps` comes to it. The lemmas
go through the functions in the order of their definition, for a function that brings trees to
canonical form and one that it approximates.
-/

namespace SymbolicAlgebra

namespace Outcome

variable {α β : Type}

/-- The first outcome is the second, unless the steps did not suffice for it. -/
def Approximates (x y : Except Fault α) : Prop := x = .error .exhausted ∨ x = y

theorem Approximates.refl (x : Except Fault α) : Approximates x x := .inr rfl

theorem Approximates.bind {x y : Except Fault α} {f g : α → Except Fault β}
    (h : Approximates x y) (hfg : ∀ a, Approximates (f a) (g a)) :
    Approximates (x >>= f) (y >>= g) := by
  rcases h with rfl | rfl
  · exact .inl rfl
  · cases x with
    | error e => exact .refl _
    | ok a => exact hfg a

theorem Approximates.map {x y : Except Fault α} (h : Approximates x y) (f : α → β) :
    Approximates (f <$> x) (f <$> y) := by
  rcases h with rfl | rfl
  · exact .inl rfl
  · exact .refl _

theorem Approximates.mapM {f g : α → Except Fault β} (h : ∀ a, Approximates (f a) (g a))
    (l : List α) : Approximates (l.mapM f) (l.mapM g) := by
  induction l with
  | nil => exact .refl _
  | cons a l ih =>
    rw [List.mapM_cons, List.mapM_cons]
    exact (h a).bind fun b => ih.bind fun bs => .refl _

theorem Approximates.foldlM {σ : Type} {f g : σ → α → Except Fault σ}
    (h : ∀ s a, Approximates (f s a) (g s a)) (l : List α) (s : σ) :
    Approximates (l.foldlM f s) (l.foldlM g s) := by
  induction l generalizing s with
  | nil => exact .refl _
  | cons a l ih =>
    rw [List.foldlM_cons, List.foldlM_cons]
    exact (h s a).bind ih

/-- An outcome for which some number of steps suffices is what comes out in the end. -/
theorem withinSteps_eq {run : Nat → Except Fault α} {enough : Nat}
    (hmono : ∀ {m n : Nat}, m ≤ n → Approximates (run m) (run n))
    (hne : run enough ≠ .error .exhausted) : withinSteps run = run enough := by
  suffices h : ∀ rounds steps, enough ≤ steps + rounds → untilEnough run steps = run enough from
    h enough initialSteps (Nat.le_add_left _ _)
  intro rounds
  induction rounds with
  | zero =>
    intro steps hle
    have hrun := (hmono hle).resolve_left hne
    rw [untilEnough_of_ne_exhausted (hrun ▸ hne), hrun]
    rfl
  | succ rounds ih =>
    intro steps hle
    by_cases hexhausted : run steps = .error .exhausted
    · rw [untilEnough_of_exhausted hexhausted]
      have hlt : steps < Nat.pow 2 steps := Nat.lt_two_pow_self
      exact ih _ (by omega)
    · rw [untilEnough_of_ne_exhausted hexhausted]
      rcases Nat.le_total steps enough with hsteps | hsteps
      · exact (hmono hsteps).resolve_left hexhausted
      · exact ((hmono hsteps).resolve_left hne).symm

theorem withinSteps_ok {run : Nat → Except Fault α} {enough : Nat} {a : α}
    (hmono : ∀ {m n : Nat}, m ≤ n → Approximates (run m) (run n)) (ha : run enough = .ok a) :
    withinSteps run = .ok a :=
  (withinSteps_eq hmono (by simp [ha])).trans ha

end Outcome

open Outcome

section
variable {canonical canonical' : Tree → Except Fault Tree}
  (hcanonical : ∀ t, Approximates (canonical t) (canonical' t))
include hcanonical

theorem Factor.join_approximates (base exponent : Tree) :
    Approximates (join canonical base exponent) (join canonical' base exponent) := by
  fun_induction join canonical base exponent with
  | case1 exponent b e ih =>
    rw [join]
    refine (Approximates.refl _).bind fun joins => ?_
    split
    · exact (Approximates.refl _).bind fun product => (hcanonical product).bind fun e' => ih e'
    · exact .refl _
  | case2 base exponent h =>
    cases base with
    | power f =>
      obtain ⟨b, e⟩ := f
      exact (h b e rfl).elim
    | _ => exact .refl _

theorem Factor.normalize_approximates (f : Factor) :
    Approximates (f.normalize canonical) (f.normalize canonical') :=
  (hcanonical f.base).bind fun base => (hcanonical f.exponent).bind fun exponent =>
    join_approximates hcanonical base exponent

theorem Tree.canonicalSum_approximates (s t : Tree) :
    Approximates (s.canonicalSum canonical t) (s.canonicalSum canonical' t) :=
  (Approximates.refl _).bind hcanonical

namespace Product

theorem merge_approximates (fs : List Factor) (f : Factor) :
    Approximates (merge canonical fs f) (merge canonical' fs f) := by
  unfold merge
  split
  · exact (Tree.canonicalSum_approximates hcanonical _ _).bind fun e => .refl _
  · exact .refl _

theorem gather_approximates (p : Product) (f : Factor) (onTop : Bool) :
    Approximates (p.gather canonical f onTop) (p.gather canonical' f onTop) := by
  unfold gather
  split
  · exact (merge_approximates hcanonical p.top f).bind fun fs => .refl _
  · exact (merge_approximates hcanonical p.bottom f).bind fun fs => .refl _

theorem step_approximates (p : Product) (item : Item) :
    Approximates (p.step canonical item) (p.step canonical' item) := by
  refine (Factor.normalize_approximates hcanonical item.factor).bind fun f => ?_
  have hgather : Approximates
      (do return (← p.gather canonical f item.onTop, []) : Except Fault (Product × List Item))
      (do return (← p.gather canonical' f item.onTop, [])) :=
    (gather_approximates hcanonical p f item.onTop).bind fun p => .refl _
  refine (Approximates.refl _).bind fun isZero => ?_
  split
  · exact .refl _
  · refine (Approximates.refl _).bind fun value? => ?_
    split
    · exact .refl _
    · refine (Approximates.refl _).bind fun power => ?_
      split
      · refine (Approximates.refl _).bind fun joins => ?_
        split
        · exact .refl _
        · exact hgather
      · exact hgather

theorem run_approximates {m n : Nat} (hmn : m ≤ n) (p : Product) (items : List Item) :
    Approximates (run canonical m p items) (run canonical' n p items) := by
  induction m generalizing n p items with
  | zero =>
    cases items with
    | nil => cases n <;> exact .refl _
    | cons item rest => exact .inl rfl
  | succ m ih =>
    obtain ⟨n, rfl⟩ : ∃ k, n = k + 1 := ⟨n - 1, by omega⟩
    cases items with
    | nil => exact .refl _
    | cons item rest =>
      exact (step_approximates hcanonical p item).bind fun (p, more) =>
        ih (Nat.le_of_succ_le_succ hmn) p (rest ++ more)

theorem cancelBase_approximates (p : Product) (b : Tree) :
    Approximates (p.cancelBase canonical b) (p.cancelBase canonical' b) := by
  unfold cancelBase
  split
  · refine (Approximates.refl _).bind fun opposite => ?_
    refine (Tree.canonicalSum_approximates hcanonical _ _).bind fun exponent => ?_
    refine (Approximates.refl _).bind fun value? => ?_
    split
    · exact (Approximates.refl _).bind fun e => (hcanonical e).bind fun e => .refl _
    · exact .refl _
  · exact .refl _

theorem cancel_approximates (p : Product) :
    Approximates (p.cancel canonical) (p.cancel canonical') := by
  apply Approximates.foldlM
  exact fun p f => cancelBase_approximates hcanonical p f.base

end Product

section
variable {m n : Nat} (hmn : m ≤ n)
include hmn

namespace Term

theorem simplifyBy_approximates (t : Term) :
    Approximates (t.simplifyBy m canonical) (t.simplifyBy n canonical') := by
  unfold simplifyBy
  split
  · exact .refl _
  · exact (Product.run_approximates hcanonical hmn _ _).bind fun p =>
      (Product.cancel_approximates hcanonical p).bind fun p => .refl _

theorem combine_approximates (combined : List Term) (t : Term) :
    Approximates (combine m canonical combined t) (combine n canonical' combined t) := by
  induction combined with
  | nil => exact .refl _
  | cons other rest ih =>
    unfold combine
    split
    · refine (Approximates.refl _).bind fun total => (Approximates.refl _).bind fun total => ?_
      exact (simplifyBy_approximates hcanonical hmn total).bind fun total => .refl _
    · exact ih.bind fun rest => .refl _

theorem combineAll_approximates {k l : Nat} (hkl : k ≤ l) (combined pending : List Term) :
    Approximates (combineAll m canonical k combined pending)
      (combineAll n canonical' l combined pending) := by
  induction k generalizing l combined pending with
  | zero =>
    cases pending with
    | nil => cases l <;> exact .refl _
    | cons t pending => exact .inl rfl
  | succ k ih =>
    obtain ⟨l, rfl⟩ : ∃ j, l = j + 1 := ⟨l - 1, by omega⟩
    have hkl' : k ≤ l := Nat.le_of_succ_le_succ hkl
    cases pending with
    | nil => exact .refl _
    | cons t pending =>
      refine (simplifyBy_approximates hcanonical hmn t).bind fun t => ?_
      refine (Approximates.refl _).bind fun c => ?_
      split
      · exact ih hkl' _ _
      · refine (Approximates.refl _).bind fun isZero => ?_
        split
        · exact ih hkl' _ _
        · exact (combine_approximates hcanonical hmn combined t).bind fun combined =>
            ih hkl' combined pending

theorem simplifySumBy_approximates (ts : List Term) :
    Approximates (simplifySumBy m canonical ts) (simplifySumBy n canonical' ts) :=
  (combineAll_approximates hcanonical hmn hmn [] ts).bind fun _ => .refl _

end Term

theorem Tree.simplifyBy_approximates (t : Tree) :
    Approximates (t.simplifyBy m canonical) (t.simplifyBy n canonical') := by
  cases t with
  | power f =>
    refine (Factor.normalize_approximates hcanonical f).bind fun f => ?_
    refine (Approximates.refl _).bind fun value? => ?_
    split
    · exact .refl _
    · exact (Approximates.refl _).bind fun t =>
        (Term.simplifyBy_approximates hcanonical hmn t).bind fun t => .refl _
  | term t => exact (Term.simplifyBy_approximates hcanonical hmn t).map _
  | sum ts => exact (Term.simplifySumBy_approximates hcanonical hmn ts).map _
  | call f args => exact (Approximates.mapM hcanonical args).map _
  | _ => exact .refl _

end

end

/-- More steps never change what a tree is simplified to. -/
theorem Tree.simplifyWith_approximates {m n : Nat} (hmn : m ≤ n) (t : Tree) :
    Approximates (t.simplifyWith m) (t.simplifyWith n) := by
  induction m generalizing n t with
  | zero => exact .inl rfl
  | succ m ih =>
    obtain ⟨n, rfl⟩ : ∃ k, n = k + 1 := ⟨n - 1, by omega⟩
    have hmn' : m ≤ n := Nat.le_of_succ_le_succ hmn
    exact simplifyBy_approximates
      (fun s => (ih hmn' s).bind fun s => .refl _) hmn' t

theorem Tree.canonicalWith_approximates {m n : Nat} (hmn : m ≤ n) (t : Tree) :
    Approximates (t.canonicalWith m) (t.canonicalWith n) :=
  (simplifyWith_approximates hmn t).bind fun _ => .refl _

variable {m n : Nat} {scope : Option Scope}

mutual

/-- More steps never change what a tree is evaluated to. -/
theorem Tree.evaluateWith_approximates (hmn : m ≤ n) : (t : Tree) →
    Approximates (t.evaluateWith m scope) (t.evaluateWith n scope)
  | .number _ | .constant _ | .variable _ => .refl _
  | .power f => f.evaluateWith_approximates hmn
  | .term t => t.evaluateWith_approximates hmn
  | .sum ts => (Term.evaluateAllWith_approximates hmn ts).bind fun _ =>
      (Approximates.refl _).bind fun _ => Tree.canonicalWith_approximates hmn _
  | .call _ args => (Tree.evaluateAllWith_approximates hmn args).bind fun _ => .refl _

theorem Factor.evaluateWith_approximates (hmn : m ≤ n) : (f : Factor) →
    Approximates (f.evaluateWith m scope) (f.evaluateWith n scope)
  | ⟨base, exponent⟩ => (base.evaluateWith_approximates hmn).bind fun _ =>
      (exponent.evaluateWith_approximates hmn).bind fun _ => .refl _

theorem Term.evaluateWith_approximates (hmn : m ≤ n) : (t : Term) →
    Approximates (t.evaluateWith m scope) (t.evaluateWith n scope)
  | ⟨multiplier, divisor, top, bottom⟩ => by
    unfold Term.evaluateWith
    split
    · exact .refl _
    split
    · exact .refl _
    refine (Factor.evaluateAllWith_approximates hmn top).bind fun top => ?_
    refine (Factor.evaluateAllWith_approximates hmn bottom).bind fun bottom => ?_
    refine (Approximates.refl _).bind fun rebuilt => ?_
    split
    · exact .refl _
    · exact (Tree.canonicalWith_approximates hmn (.term rebuilt)).bind fun _ => .refl _

theorem Factor.evaluateAllWith_approximates (hmn : m ≤ n) : (fs : List Factor) →
    Approximates (Factor.evaluateAllWith m scope fs) (Factor.evaluateAllWith n scope fs)
  | [] => .refl _
  | f :: rest => (f.evaluateWith_approximates hmn).bind fun _ =>
      (Factor.evaluateAllWith_approximates hmn rest).bind fun _ => .refl _

theorem Term.evaluateAllWith_approximates (hmn : m ≤ n) : (ts : List Term) →
    Approximates (Term.evaluateAllWith m scope ts) (Term.evaluateAllWith n scope ts)
  | [] => .refl _
  | t :: rest => (t.evaluateWith_approximates hmn).bind fun _ => (Approximates.refl _).bind fun _ =>
      (Term.evaluateAllWith_approximates hmn rest).bind fun _ => .refl _

theorem Tree.evaluateAllWith_approximates (hmn : m ≤ n) : (ts : List Tree) →
    Approximates (Tree.evaluateAllWith m scope ts) (Tree.evaluateAllWith n scope ts)
  | [] => .refl _
  | t :: rest => (t.evaluateWith_approximates hmn).bind fun _ =>
      (Tree.evaluateAllWith_approximates hmn rest).bind fun _ => .refl _

end

section
variable (hmn : m ≤ n)
include hmn

namespace Term

theorem simplifySumWith_approximates (ts : List Term) :
    Approximates (simplifySumWith m ts) (simplifySumWith n ts) :=
  simplifySumBy_approximates (Tree.canonicalWith_approximates hmn) hmn ts

theorem multiplyOut_approximates (ss ts : List Term) :
    Approximates (multiplyOut m ss ts) (multiplyOut n ss ts) :=
  (Approximates.refl _).bind fun _ => (Approximates.refl _).bind fun us =>
    simplifySumWith_approximates hmn us

theorem powerOut_approximates (ts : List Term) (k : Nat) :
    Approximates (powerOut m ts k) (powerOut n ts k) := by
  induction k with
  | zero => exact .refl _
  | succ k ih => exact ih.bind fun us => multiplyOut_approximates hmn us ts

theorem multiplyIn_approximates (output : List Term) (t : Tree) :
    Approximates (multiplyIn m output t) (multiplyIn n output t) := by
  cases t with
  | sum ts => exact multiplyOut_approximates hmn output ts
  | _ => exact .refl _

end Term

end

mutual

/-- More steps never change what a tree is expanded to. -/
theorem Tree.expandWith_approximates (hmn : m ≤ n) : (t : Tree) →
    Approximates (t.expandWith m) (t.expandWith n)
  | .number _ | .constant _ | .variable _ => .refl _
  | .power f => f.expandWith_approximates hmn
  | .term t => t.expandWith_approximates hmn
  | .sum ts => (Term.expandedSummands_approximates hmn ts).bind fun _ =>
      (Approximates.refl _).bind fun _ => Tree.canonicalWith_approximates hmn _
  | .call _ args => (Tree.expandAllWith_approximates hmn args).bind fun _ => .refl _

theorem Factor.expandWith_approximates (hmn : m ≤ n) : (f : Factor) →
    Approximates (f.expandWith m) (f.expandWith n)
  | ⟨base, exponent⟩ => by
    refine (base.expandWith_approximates hmn).bind fun base => ?_
    refine (exponent.expandWith_approximates hmn).bind fun exponent => ?_
    refine (Tree.canonicalWith_approximates hmn exponent).bind fun exponent => ?_
    refine (Approximates.refl _).bind fun one => ?_
    split
    · exact .refl _
    · refine (Approximates.refl _).bind fun reduced => (Approximates.refl _).bind fun power? => ?_
      split
      · split
        · exact (Term.powerOut_approximates hmn _ _).bind fun _ => .refl _
        · exact .refl _
      · exact (Approximates.refl _).bind fun t => Tree.canonicalWith_approximates hmn (.term t)
      · exact .refl _

theorem Term.expandWith_approximates (hmn : m ≤ n) : (t : Term) →
    Approximates (t.expandWith m) (t.expandWith n)
  | ⟨_, _, top, bottom⟩ => by
    refine (Factor.expandProductWith_approximates hmn top _).bind fun numerator => ?_
    refine (Factor.expandProductWith_approximates hmn bottom _).bind fun denominator => ?_
    refine (Approximates.refl _).bind fun _ => (Approximates.refl _).bind fun _ => ?_
    exact (Approximates.refl _).bind fun t => Tree.canonicalWith_approximates hmn (.term t)

theorem Factor.expandProductWith_approximates (hmn : m ≤ n) : (fs : List Factor) →
    (output : List Term) →
    Approximates (Factor.expandProductWith m output fs) (Factor.expandProductWith n output fs)
  | [], _ => .refl _
  | f :: rest, output => by
    refine (f.expandWith_approximates hmn).bind fun e => (Approximates.refl _).bind fun pieces => ?_
    refine (Approximates.foldlM (Term.multiplyIn_approximates hmn) pieces output).bind fun out => ?_
    exact Factor.expandProductWith_approximates hmn rest out

theorem Term.expandedSummands_approximates (hmn : m ≤ n) : (ts : List Term) →
    Approximates (Term.expandedSummands m ts) (Term.expandedSummands n ts)
  | [] => .refl _
  | t :: rest => (t.expandWith_approximates hmn).bind fun _ => (Approximates.refl _).bind fun _ =>
      (Term.expandedSummands_approximates hmn rest).bind fun _ => .refl _

theorem Tree.expandAllWith_approximates (hmn : m ≤ n) : (ts : List Tree) →
    Approximates (Tree.expandAllWith m ts) (Tree.expandAllWith n ts)
  | [] => .refl _
  | t :: rest => (t.expandWith_approximates hmn).bind fun _ =>
      (Tree.expandAllWith_approximates hmn rest).bind fun _ => .refl _

end

end SymbolicAlgebra
