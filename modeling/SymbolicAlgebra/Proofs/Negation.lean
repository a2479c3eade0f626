import SymbolicAlgebra.Proofs.Building
import SymbolicAlgebra.Proofs.TermForm

/-!
# Negation as a product

To negate a tree is to multiply it by minus one, and the factor may stand on either side: doubles
commute too, and one changes no value. A term keeps its factors when it is multiplied only if they
are folded, which is what building a term leaves of most of them.
-/

namespace SymbolicAlgebra

open Outcome

/-- A factor that folding keeps: no number, no zeroth power and no first power of a negative base. -/
def Factor.IsFolded (f : Factor) : Prop :=
  f.exponent.isZero = .ok false ∧ f.value? = .ok none ∧
    (f.exponent.isOne = .ok false ∨ f.exponent.isOne = .ok true ∧ f.base.isNegative = .ok false)

def Factor.IsFoldedSide (fs : List Factor) : Prop :=
  fs = Term.side [] ∨ fs ≠ [] ∧ ∀ f ∈ fs, f.IsFolded

/-- A tree that, if it is a term, is as building it leaves it. -/
def Tree.IsFolded : Tree → Prop
  | .term t => Factor.IsFoldedSide t.top ∧ Factor.IsFoldedSide t.bottom
  | _ => True

theorem Factor.IsFolded.absorb {f : Factor} (h : f.IsFolded) (c : Value) :
    f.base.absorb f.exponent c = .ok (c, some f) := by
  obtain ⟨base, exponent⟩ := f
  obtain ⟨hzero, hvalue, hsign⟩ := h
  have hpulls : Factor.pullsSign ⟨base, exponent⟩ = .ok false := by
    rcases hsign with hone | ⟨hone, hsign⟩
    · simp [Factor.pullsSign, hone]
    · simp [Factor.pullsSign, hone, hsign]
  simp [Tree.absorb_eq, hzero, hvalue, hpulls]

theorem Tree.absorb_eq_mul (base exponent : Tree) (c : Value) :
    base.absorb exponent c = do
      let (k, kept) ← base.absorb exponent .one
      return (← c.mul k, kept) := by
  rw [Tree.absorb_eq base exponent c, Tree.absorb_eq base exponent .one, bind_assoc]
  refine bind_congr fun zero => ?_
  cases zero with
  | true => simp [Value.mul_one]
  | false =>
    simp only [Bool.false_eq_true, if_false, bind_assoc]
    refine bind_congr fun value? => ?_
    cases value? with
    | some v => simp [Value.one_mul]
    | none =>
      simp only [bind_assoc]
      refine bind_congr fun pulls => ?_
      cases pulls with
      | false => simp [Value.mul_one]
      | true => simp [Value.one_mul]

namespace Term

theorem collect_side_nil (c : Value) : collect c (side []) = .ok (c, []) :=
  collect_placeholders c (List.forall_mem_singleton.mpr rfl)

theorem collect_of_isFolded {fs : List Factor} (h : ∀ f ∈ fs, f.IsFolded) (c : Value) :
    collect c fs = .ok (c, fs) := by
  induction fs with
  | nil => rfl
  | cons f fs ih =>
    obtain ⟨hf, hfs⟩ := List.forall_mem_cons.mp h
    rw [← List.singleton_append, collect_append, collect_singleton, hf.absorb]
    simp [ih hfs]

theorem collect_side_append {fs : List Factor} (h : Factor.IsFoldedSide fs) (c : Value) :
    ∃ kept, collect c (side [] ++ fs) = .ok (c, kept) ∧ side kept = fs := by
  rcases h with rfl | ⟨hne, hfs⟩
  · exact ⟨[], by simp [collect_append, collect_side_nil], rfl⟩
  · refine ⟨fs, by simp [collect_append, collect_side_nil, collect_of_isFolded hfs], ?_⟩
    cases fs with
    | nil => exact absurd rfl hne
    | cons f fs => rfl

end Term

namespace Tree

theorem of_negativeOne (f : Factor) :
    Term.of .negativeOne .one (Term.side [] ++ [f]) (Term.side []) = do
      let (k, kept) ← f.base.absorb f.exponent .one
      return ⟨← k.mul .negativeOne, .one, Term.side kept.toList, Term.side []⟩ := by
  simp only [Term.of, Term.collect_append, Term.collect_side_nil, Term.collect_singleton, ok_bind,
    absorb_eq_mul f.base f.exponent .negativeOne, bind_assoc, pure_bind, List.nil_append,
    Value.mul_negativeOne_comm]

theorem ofFactor_scale (f : Factor) :
    (do (← Term.ofFactor f).scale .negativeOne : Except Fault Term) = do
      let (k, kept) ← f.base.absorb f.exponent .one
      return ⟨← k.mul .negativeOne, .one, Term.side kept.toList, Term.side []⟩ := by
  simp only [Term.ofFactor, Term.of, Term.collect_singleton, Term.collect_nil, Term.scale,
    bind_assoc, pure_bind, ok_bind]

theorem of_times_negativeOne (f : Factor) :
    Term.of .one .one [f, ⟨negativeOne, .one⟩] [] = do
      let (k, kept) ← f.base.absorb f.exponent .one
      return ⟨← k.mul .negativeOne, .one, Term.side kept.toList, Term.side []⟩ := by
  have hvalue : Factor.value? ⟨negativeOne, .one⟩ = .ok (some .negativeOne) := by
    have hpower := Value.exactPower?_exact (x := -1) (n := 1) (.inr (by decide)) (by decide)
    simpa [Factor.value?, negativeOne, one, plainValue?, Value.one, Value.negativeOne] using hpower
  have hzero : one.isZero = .ok false := rfl
  have habsorb : ∀ k : Value, negativeOne.absorb .one k =
      (do return (← k.mul .negativeOne, none) : Except Fault (Value × Option Factor)) := by
    intro k
    rw [absorb_eq, hzero]
    simp [hvalue]
  rw [show [f, ⟨negativeOne, .one⟩] = [f] ++ [(⟨negativeOne, .one⟩ : Factor)] from rfl]
  simp only [Term.of, Term.collect_append, Term.collect_singleton, Term.collect_nil, habsorb,
    bind_assoc, pure_bind, ok_bind, Option.toList_none, List.append_nil]

theorem negativeOne_multiply {t : Tree} (h : t.IsFolded) : negativeOne.multiply t = t.negate := by
  have hfactor : ∀ f : Factor,
      (do return term (← Term.of .negativeOne .one (Term.side [] ++ [f]) (Term.side [])) :
        Except Fault Tree) =
      (do return term (← (← Term.ofFactor f).scale .negativeOne)) := by
    intro f
    rw [of_negativeOne, ← ofFactor_scale, bind_assoc]
  cases t with
  | number v => exact congrArg (number <$> ·) (Value.mul_negativeOne_comm v).symm
  | term t =>
    obtain ⟨m, d, top, bottom⟩ := t
    obtain ⟨htop, hbottom⟩ := h
    have hmul : negativeOne.multiply (term ⟨m, d, top, bottom⟩) =
        (do return term (← (Term.ofValue .negativeOne).mul ⟨m, d, top, bottom⟩)) := rfl
    have hscale : (term ⟨m, d, top, bottom⟩).negate =
        (do return term (← (⟨m, d, top, bottom⟩ : Term).scale .negativeOne)) := rfl
    rw [hmul, hscale, Term.mul, Term.scale]
    simp only [Term.ofValue, Value.one_mul, ok_bind, Value.mul_negativeOne_comm m]
    cases Value.negativeOne.mul m with
    | error e => rfl
    | ok v =>
      obtain ⟨keptTop, hkeptTop, hsideTop⟩ := Term.collect_side_append htop v
      obtain ⟨keptBottom, hkeptBottom, hsideBottom⟩ := Term.collect_side_append hbottom d
      simp [Term.of, hkeptTop, hkeptBottom, hsideTop, hsideBottom]
  | sum ts =>
    have hmul : negativeOne.multiply (sum ts) = do
        return term (← Term.of .negativeOne .one (Term.side [] ++ [⟨sum ts, .one⟩]) (Term.side [])) :=
      rfl
    have hnegate : (sum ts).negate = do
        return term (← Term.of .one .one [⟨sum ts, .one⟩, ⟨negativeOne, .one⟩] []) := rfl
    rw [hmul, hnegate, of_negativeOne, of_times_negativeOne]
  | power f => exact hfactor f
  | _ => exact hfactor ⟨_, .one⟩

end Tree

end SymbolicAlgebra
