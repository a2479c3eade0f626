import SymbolicAlgebra.Proofs.Building
import SymbolicAlgebra.Proofs.Grammar

/-!
# Faults of building trees

Building a tree from the trees of its parts can only fail where a number lies beyond the doubles.
The lemmas go through the functions in the order of their definition.
-/

namespace SymbolicAlgebra

namespace Outcome

variable {α β : Type}

section
variable {F G : Fault → Prop} {x y : Except Fault α}

/-- The computation has a result or fails with one of the given faults. -/
def FailsOnly (F : Fault → Prop) (x : Except Fault α) : Prop := ∀ e, x = .error e → F e

theorem FailsOnly.ok (a : α) : FailsOnly F (.ok a) := by simp [FailsOnly]

theorem FailsOnly.error {e : Fault} (he : F e) : FailsOnly F (.error e : Except Fault α) := by
  rintro e' h
  rwa [← Except.error.inj h]

theorem FailsOnly.mono (h : FailsOnly F x) (hFG : ∀ e, F e → G e) : FailsOnly G x :=
  fun e he => hFG e (h e he)

theorem FailsOnly.bind_ok {f : α → Except Fault β} (h : FailsOnly F x)
    (hf : ∀ a, x = .ok a → FailsOnly F (f a)) : FailsOnly F (x >>= f) := by
  cases x with
  | error e => exact .error (h e rfl)
  | ok a => exact hf a rfl

theorem FailsOnly.bind {f : α → Except Fault β} (h : FailsOnly F x)
    (hf : ∀ a, FailsOnly F (f a)) : FailsOnly F (x >>= f) := h.bind_ok fun a _ => hf a

theorem FailsOnly.map (h : FailsOnly F x) (f : α → β) : FailsOnly F (f <$> x) := by
  cases x with
  | error e => exact .error (h e rfl)
  | ok a => exact .ok _

theorem FailsOnly.ite {c : Prop} [Decidable c] (hx : FailsOnly F x) (hy : FailsOnly F y) :
    FailsOnly F (if c then x else y) := by
  split
  · exact hx
  · exact hy

theorem FailsOnly.mapM {f : α → Except Fault β} (h : ∀ a, FailsOnly F (f a)) (l : List α) :
    FailsOnly F (l.mapM f) := by
  induction l with
  | nil => exact .ok _
  | cons a l ih =>
    rw [List.mapM_cons]
    exact (h a).bind fun b => ih.bind fun bs => .ok _

theorem FailsOnly.foldlM {σ : Type} {f : σ → α → Except Fault σ} (h : ∀ s a, FailsOnly F (f s a))
    (l : List α) (s : σ) : FailsOnly F (l.foldlM f s) := by
  induction l generalizing s with
  | nil => exact .ok _
  | cons a l ih =>
    rw [List.foldlM_cons]
    exact (h s a).bind ih

theorem FailsOnly.filterM {f : α → Except Fault Bool} (h : ∀ a, FailsOnly F (f a)) (l : List α) :
    FailsOnly F (l.filterM f) := by
  have haux : ∀ l acc, FailsOnly F (List.filterAuxM f l acc) := by
    intro l
    induction l with
    | nil => exact fun acc => .ok _
    | cons a l ih => exact fun acc => (h a).bind fun b => ih _
  exact (haux l []).bind fun _ => .ok _

end

/-- The computation has a result or fails with an overflow. -/
abbrev OnlyOverflows (x : Except Fault α) : Prop := FailsOnly (· = .overflow) x

theorem FailsOnly.within {F : Fault → Prop} {x : Except Fault α} (h : OnlyOverflows x)
    (hF : F .overflow) : FailsOnly F x := h.mono fun _ he => he ▸ hF

section
variable {x : Except Fault α} {P Q : α → Prop}

/-- The computation fails with an overflow or its result has the property. -/
def Yields (x : Except Fault α) (P : α → Prop) : Prop := x = .error .overflow ∨ ∃ a, x = .ok a ∧ P a

theorem Yields.of_ok {a : α} (hx : x = .ok a) (ha : P a) : Yields x P := .inr ⟨a, hx, ha⟩

theorem Yields.mono (h : Yields x P) (hPQ : ∀ a, P a → Q a) : Yields x Q :=
  h.imp_right fun ⟨a, hx, ha⟩ => ⟨a, hx, hPQ a ha⟩

theorem Yields.bind {f : α → Except Fault β} {R : β → Prop} (h : Yields x P)
    (hf : ∀ a, P a → Yields (f a) R) : Yields (x >>= f) R := by
  rcases h with hx | ⟨a, hx, ha⟩
  · exact .inl (by rw [hx]; rfl)
  · rw [hx]
    exact hf a ha

theorem FailsOnly.yields (h : OnlyOverflows x) : Yields x fun a => x = .ok a := by
  cases x with
  | error e => exact .inl (by rw [h e rfl])
  | ok a => exact .inr ⟨a, rfl, rfl⟩

end

end Outcome

open Outcome

namespace Value

theorem toFloat_onlyOverflows (v : Value) : OnlyOverflows v.toFloat := by
  cases v with
  | exact q =>
    cases h : Binary64.nearest? q with
    | none => simp [toFloat, h, FailsOnly]
    | some x => simp [toFloat, h, FailsOnly]
  | float x => exact .ok x

theorem inexact_onlyOverflows (op : Float → Float → Float) (a b : Value) :
    OnlyOverflows (inexact op a b) :=
  a.toFloat_onlyOverflows.bind fun _ => b.toFloat_onlyOverflows.bind fun _ => .ok _

theorem add_onlyOverflows (a b : Value) : OnlyOverflows (a.add b) := by
  unfold add
  split
  · exact .ok _
  · exact inexact_onlyOverflows _ _ _

theorem mul_onlyOverflows (a b : Value) : OnlyOverflows (a.mul b) := by
  unfold mul
  split
  · exact .ok _
  · exact inexact_onlyOverflows _ _ _

theorem div_onlyOverflows (a b : Value) : OnlyOverflows (a.div b) := by
  unfold div
  refine .ite (.ok _) ?_
  split
  · exact .ok _
  · exact inexact_onlyOverflows _ _ _

theorem pow_onlyOverflows (a b : Value) : OnlyOverflows (a.pow b) := by
  unfold pow
  refine .ite (.ok _) ?_
  split
  · exact .ok _
  · exact inexact_onlyOverflows _ _ _

theorem exactPower?_onlyOverflows (a b : Value) : OnlyOverflows (a.exactPower? b) :=
  (a.pow_onlyOverflows b).bind fun _ => .ok _

end Value

mutual

theorem Tree.plainValue?_onlyOverflows : (t : Tree) → OnlyOverflows t.plainValue?
  | .number _ | .constant _ | .variable _ | .call _ _ | .sum [] | .sum (_ :: _ :: _) => .ok _
  | .power f => f.value?_onlyOverflows
  | .term t | .sum [t] => t.plainValue?_onlyOverflows

theorem Factor.value?_onlyOverflows : (f : Factor) → OnlyOverflows f.value?
  | ⟨base, exponent⟩ => by
    refine base.plainValue?_onlyOverflows.bind fun b => ?_
    cases b with
    | none => exact .ok _
    | some b =>
      refine exponent.plainValue?_onlyOverflows.bind fun e => ?_
      cases e with
      | none => exact .ok _
      | some e => exact b.exactPower?_onlyOverflows e

theorem Term.plainValue?_onlyOverflows : (t : Term) → OnlyOverflows t.plainValue?
  | ⟨multiplier, divisor, top, bottom⟩ =>
    (Factor.allOne_onlyOverflows top).bind fun _ => .ite
      ((Factor.allOne_onlyOverflows bottom).bind fun _ => .ite
        ((multiplier.div_onlyOverflows divisor).bind fun _ => .ok _) (.ok _)) (.ok _)

theorem Tree.isOne_onlyOverflows : (t : Tree) → OnlyOverflows t.isOne
  | .number _ | .constant _ | .variable _ | .call _ _ | .sum [] | .sum (_ :: _ :: _) => .ok _
  | .power f => f.isOne_onlyOverflows
  | .term t | .sum [t] => t.isOne_onlyOverflows

theorem Factor.isOne_onlyOverflows : (f : Factor) → OnlyOverflows f.isOne
  | ⟨base, exponent⟩ =>
    exponent.isZero_onlyOverflows.bind fun _ => .ite (.ok _) base.isOne_onlyOverflows

theorem Term.isOne_onlyOverflows : (t : Term) → OnlyOverflows t.isOne
  | ⟨_, _, top, bottom⟩ => .ite ((Factor.allOne_onlyOverflows bottom).bind fun _ =>
      .ite (Factor.allOne_onlyOverflows top) (.ok _)) (.ok _)

theorem Factor.allOne_onlyOverflows : (fs : List Factor) → OnlyOverflows (Factor.allOne fs)
  | [] => .ok _
  | f :: rest => f.isOne_onlyOverflows.bind fun _ =>
      .ite (Factor.allOne_onlyOverflows rest) (.ok _)

theorem Tree.isZero_onlyOverflows : (t : Tree) → OnlyOverflows t.isZero
  | .number _ | .constant _ | .variable _ | .call _ _ => .ok _
  | .power f => f.isZero_onlyOverflows
  | .term t => t.isZero_onlyOverflows
  | .sum ts => Term.allZero_onlyOverflows ts

theorem Factor.isZero_onlyOverflows : (f : Factor) → OnlyOverflows f.isZero
  | ⟨base, exponent⟩ => exponent.plainValue?_onlyOverflows.bind fun _ =>
      base.isZero_onlyOverflows.bind fun _ => .ite (.ok _) (.ok _)

theorem Term.isZero_onlyOverflows : (t : Term) → OnlyOverflows t.isZero
  | ⟨_, _, top, _⟩ => .ite (.ok _) (Factor.anyZero_onlyOverflows top)

theorem Factor.anyZero_onlyOverflows : (fs : List Factor) → OnlyOverflows (Factor.anyZero fs)
  | [] => .ok _
  | f :: rest => f.isZero_onlyOverflows.bind fun _ =>
      .ite (.ok _) (Factor.anyZero_onlyOverflows rest)

theorem Term.allZero_onlyOverflows : (ts : List Term) → OnlyOverflows (Term.allZero ts)
  | [] => .ok _
  | t :: rest => t.isZero_onlyOverflows.bind fun _ =>
      .ite (Term.allZero_onlyOverflows rest) (.ok _)

end

mutual

theorem Tree.isNegative_onlyOverflows : (t : Tree) → OnlyOverflows t.isNegative
  | .number _ | .constant _ | .variable _ | .call _ _ | .sum _ | .term _ => .ok _
  | .power f => f.isNegative_onlyOverflows

theorem Factor.isNegative_onlyOverflows : (f : Factor) → OnlyOverflows f.isNegative
  | ⟨base, exponent⟩ =>
    exponent.isOne_onlyOverflows.bind fun _ => .ite base.isNegative_onlyOverflows (.ok _)

end

theorem Term.denominatorIsOne_onlyOverflows (t : Term) : OnlyOverflows t.denominatorIsOne :=
  .ite (Factor.allOne_onlyOverflows t.bottom) (.ok _)

theorem Factor.highestPower?_onlyOverflows (fs : List Factor) :
    OnlyOverflows (highestPower? fs) := by
  refine .foldlM (fun highest f => f.exponent.plainValue?_onlyOverflows.bind fun e => ?_) fs none
  cases e with
  | none => exact .ok _
  | some e => exact .ok _

theorem Term.rank_onlyOverflows (t : Term) : OnlyOverflows t.rank := by
  have hpower : OnlyOverflows t.highestPower? := by
    refine (Factor.highestPower?_onlyOverflows t.top).bind fun power => ?_
    cases power with
    | none => exact Factor.highestPower?_onlyOverflows t.bottom
    | some power => exact .ok _
  refine hpower.bind fun power => ?_
  cases power with
  | none => exact .ok _
  | some power => exact .ite (.ok _) power.toFloat_onlyOverflows

mutual

theorem Tree.reduce_onlyOverflows : (t : Tree) → OnlyOverflows t.reduce
  | .number _ | .constant _ | .variable _ | .call _ _ | .sum [] | .sum (_ :: _ :: _) => .ok _
  | .power f => f.reduce_onlyOverflows
  | .term t | .sum [t] => t.reduce_onlyOverflows

theorem Factor.reduce_onlyOverflows : (f : Factor) → OnlyOverflows f.reduce
  | ⟨base, exponent⟩ =>
    exponent.isOne_onlyOverflows.bind fun _ => .ite base.reduce_onlyOverflows (.ok _)

theorem Term.reduce_onlyOverflows : (t : Term) → OnlyOverflows t.reduce
  | ⟨multiplier, divisor, [⟨base, exponent⟩], bottom⟩ => by
    refine (Term.denominatorIsOne_onlyOverflows _).bind fun whole => .ite ?_ (.ok _)
    refine (Factor.isOne_onlyOverflows _).bind fun one => .ite (.ok _) (.ite ?_ (.ok _))
    exact exponent.isOne_onlyOverflows.bind fun first => .ite base.reduce_onlyOverflows (.ok _)
  | ⟨_, _, [], _⟩ | ⟨_, _, _ :: _ :: _, _⟩ => by
    rw [Term.reduce]
    · exact .ok _
    · simp

end

namespace Term

theorem scale_onlyOverflows (t : Term) (v : Value) : OnlyOverflows (t.scale v) :=
  (t.multiplier.mul_onlyOverflows v).bind fun _ => .ok _

end Term

theorem Tree.absorb_onlyOverflows : (base exponent : Tree) → (c : Value) →
    OnlyOverflows (base.absorb exponent c) := by
  intro base exponent c
  have hflip : ∀ {x : Except Fault Tree}, OnlyOverflows x → OnlyOverflows (do
      let o ← x
      return (← c.mul .negativeOne, some (⟨o, .one⟩ : Factor))) :=
    fun hx => hx.bind fun o => (c.mul_onlyOverflows _).bind fun v => .ok _
  rw [Tree.absorb.eq_def]
  refine exponent.isZero_onlyOverflows.bind fun zero => .ite (.ok _) ?_
  refine (Factor.value?_onlyOverflows _).bind fun value? => ?_
  cases value? with
  | some v => exact (c.mul_onlyOverflows v).bind fun _ => .ok _
  | none =>
    refine exponent.isOne_onlyOverflows.bind fun one => ?_
    cases one with
    | false => exact .ok _
    | true =>
      refine base.isNegative_onlyOverflows.bind fun pulls => .ite ?_ (.ok _)
      cases base with
      | number v => exact hflip ((v.mul_onlyOverflows _).map _)
      | term t =>
        exact (t.scale_onlyOverflows _).bind fun u => hflip u.reduce_onlyOverflows
      | power f =>
        obtain ⟨b, e⟩ := f
        refine (b.absorb_onlyOverflows e .one).bind fun s => ?_
        obtain ⟨k, kept⟩ := s
        exact (Term.scale_onlyOverflows _ _).bind fun u => hflip u.reduce_onlyOverflows
      | _ => exact hflip (.ok _)

namespace Term

theorem collect_onlyOverflows (c : Value) (fs : List Factor) : OnlyOverflows (collect c fs) :=
  .foldlM (fun s f => (f.base.absorb_onlyOverflows f.exponent s.1).bind fun _ => .ok _) fs _

theorem of_onlyOverflows (m d : Value) (top bottom : List Factor) :
    OnlyOverflows (of m d top bottom) :=
  (collect_onlyOverflows m top).bind fun _ => (collect_onlyOverflows d bottom).bind fun _ => .ok _

theorem summed_onlyOverflows (ts : List Term) : OnlyOverflows (summed ts) :=
  (FailsOnly.mapM (fun t => t.rank_onlyOverflows.bind fun _ => .ok _) _).bind fun _ => .ok _

end Term

namespace Tree

theorem toTerm_onlyOverflows (t : Tree) : OnlyOverflows t.toTerm := by
  have hfactor : ∀ f, OnlyOverflows (Term.ofFactor f) := fun f => Term.of_onlyOverflows _ _ _ _
  cases t with
  | term t => exact .ok _
  | number v => exact .ok _
  | sum ts =>
    refine (reduce_onlyOverflows _).bind fun c => ?_
    cases c with
    | term t => exact .ok _
    | number v => exact .ok _
    | _ => exact hfactor _
  | _ => exact hfactor _

theorem sumOf_onlyOverflows (ts : List Tree) : OnlyOverflows (sumOf ts) :=
  (FailsOnly.mapM toTerm_onlyOverflows ts).bind fun us =>
    (Term.summed_onlyOverflows us).bind fun _ => .ok _

theorem summands_onlyOverflows (t : Tree) : OnlyOverflows t.summands := by
  match t with
  | .sum [t] => exact t.isZero_onlyOverflows.bind fun _ => .ite (.ok _) (.ok _)
  | .sum [] | .sum (_ :: _ :: _) => exact .ok _
  | .number _ | .constant _ | .variable _ | .power _ | .term _ | .call _ _ =>
    exact (toTerm_onlyOverflows _).bind fun _ => .ok _

end Tree

namespace Term

theorem withCommonDenominator_onlyOverflows (s t : Term) :
    OnlyOverflows (s.withCommonDenominator t) :=
  .ite (.ok _) ((Value.mul_onlyOverflows _ _).bind fun _ => (Value.mul_onlyOverflows _ _).bind
    fun _ => of_onlyOverflows _ _ _ _)

theorem add_onlyOverflows (s t : Term) : OnlyOverflows (s.add t) := by
  refine (s.withCommonDenominator_onlyOverflows t).bind fun left => ?_
  refine (t.withCommonDenominator_onlyOverflows s).bind fun right => .ite ?_ ?_
  · exact (Value.add_onlyOverflows _ _).bind fun _ => .ok _
  · refine (denominatorIsOne_onlyOverflows left).bind fun _ => .ite ?_ ?_
    · exact (summed_onlyOverflows _).bind fun _ => .ok _
    · refine (of_onlyOverflows _ _ _ _).bind fun u => (of_onlyOverflows _ _ _ _).bind fun v => ?_
      exact (summed_onlyOverflows _).bind fun _ => (of_onlyOverflows _ _ _ _).bind fun _ => .ok _

theorem times_onlyOverflows (s : Term) (t : Tree) : OnlyOverflows (s.times t) := by
  cases t with
  | term t => exact (Value.mul_onlyOverflows _ _).bind fun _ =>
      (Value.mul_onlyOverflows _ _).bind fun _ => of_onlyOverflows _ _ _ _
  | number v => exact s.scale_onlyOverflows v
  | _ => exact of_onlyOverflows _ _ _ _

end Term

namespace Tree

theorem add_onlyOverflows (s t : Tree) : OnlyOverflows (s.add t) := by
  unfold add
  split
  · exact (Value.add_onlyOverflows _ _).map _
  · exact Term.add_onlyOverflows _ _
  · refine .ite ?_ (.ite (sumOf_onlyOverflows _) ?_)
    · exact (summands_onlyOverflows _).bind fun _ => (summands_onlyOverflows _).bind fun _ =>
        (Term.summed_onlyOverflows _).bind fun _ => .ok _
    · exact (toTerm_onlyOverflows _).bind fun u => (toTerm_onlyOverflows _).bind fun v =>
        u.add_onlyOverflows v

theorem multiply_onlyOverflows (s t : Tree) : OnlyOverflows (s.multiply t) := by
  unfold multiply
  split
  · exact (Value.mul_onlyOverflows _ _).map _
  · refine (reduce_onlyOverflows _).bind fun r => ?_
    split
    · exact (Term.times_onlyOverflows _ _).bind fun _ => .ok _
    · exact (Term.of_onlyOverflows _ _ _ _).bind fun _ => .ok _
  · exact (toTerm_onlyOverflows _).bind fun u => (u.times_onlyOverflows _).bind fun _ => .ok _

theorem negate_onlyOverflows (t : Tree) : OnlyOverflows t.negate := multiply_onlyOverflows _ _

theorem divide_onlyOverflows (s t : Tree) : OnlyOverflows (s.divide t) :=
  (Term.of_onlyOverflows _ _ _ _).bind fun _ => multiply_onlyOverflows _ _

theorem subtract_onlyOverflows (s t : Tree) : OnlyOverflows (s.subtract t) :=
  t.negate_onlyOverflows.bind fun _ => add_onlyOverflows _ _

end Tree

theorem Operator.apply_onlyOverflows {o : Operator} (s t : Tree)
    (h : o ∈ additive ∨ o ∈ multiplicative) : OnlyOverflows (o.apply [s, t]) := by
  cases o with
  | add => exact s.add_onlyOverflows t
  | subtract => exact s.subtract_onlyOverflows t
  | multiply => exact s.multiply_onlyOverflows t
  | juxtapose => exact s.multiply_onlyOverflows t
  | divide => exact s.divide_onlyOverflows t
  | remainder => exact .ok _
  | _ => simp [additive, multiplicative] at h

mutual

/-- The tree of a phrase can be built unless a number lies beyond the doubles. -/
theorem Phrase.tree_onlyOverflows {t : Tier} : (p : Phrase t) → OnlyOverflows p.tree
  | .operand _ _ => .ok _
  | .bracketed _ _ s => s.tree_onlyOverflows
  | .call _ _ _ args => args.trees_onlyOverflows.bind fun _ => .ok _
  | .atom a => a.tree_onlyOverflows
  | .negation a => a.tree_onlyOverflows.bind fun t => t.negate_onlyOverflows
  | .factorial u => u.tree_onlyOverflows.bind fun _ => .ok _
  | .unary u => u.tree_onlyOverflows
  | .raise u p => u.tree_onlyOverflows.bind fun _ => p.tree_onlyOverflows.bind fun _ => .ok _
  | .power p => p.tree_onlyOverflows
  | .multiply l _ h r => l.tree_onlyOverflows.bind fun _ => r.tree_onlyOverflows.bind fun _ =>
      Operator.apply_onlyOverflows _ _ (.inr h)
  | .product p => p.tree_onlyOverflows
  | .add l _ h r => l.tree_onlyOverflows.bind fun _ => r.tree_onlyOverflows.bind fun _ =>
      Operator.apply_onlyOverflows _ _ (.inl h)

theorem Arguments.trees_onlyOverflows {n : Nat} : (args : Arguments n) → OnlyOverflows args.trees
  | .last s => s.tree_onlyOverflows.bind fun _ => .ok _
  | .cons s rest => s.tree_onlyOverflows.bind fun _ => rest.trees_onlyOverflows.bind fun _ => .ok _

end

end SymbolicAlgebra
