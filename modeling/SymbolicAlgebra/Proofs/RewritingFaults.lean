import SymbolicAlgebra.Proofs.ReadingFaults
import SymbolicAlgebra.Proofs.Termination

/-!
# Faults of working on a tree that was read

A tree that was read is well-formed, and so is every tree within it, so each function in it has as
many arguments as it needs. Simplifying, expanding and evaluating such a tree and finding its number
then fail only where a number lies beyond the doubles, and writing it only at a limit of printing.
-/

namespace SymbolicAlgebra

open Outcome

theorem Tree.IsWellFormed.appliesWith {t : Tree} (h : t.IsWellFormed) :
    t.AppliesWith (· = .overflow) := by
  cases t with
  | call f args => exact fun values hlength => Function.apply_onlyOverflows (hlength.trans h.1)
  | _ => trivial

theorem Tree.IsWellFormed.evaluate_onlyOverflows {t : Tree} (h : t.IsWellFormed)
    (scope : Option Scope) : OnlyOverflows (t.evaluate scope) :=
  t.evaluate_faults (fun s hs => (t.of_mem_nodes isWellFormed_compositional h s hs).appliesWith) scope

theorem Tree.length_numericValues {ts : List Tree} {values : List Value}
    (h : Tree.numericValues ts = .ok values) : values.length = ts.length := by
  induction ts generalizing values with
  | nil =>
    obtain rfl := Except.ok.inj h
    rfl
  | cons t ts ih =>
    obtain ⟨v, -, h⟩ := bind_eq_ok.mp h
    obtain ⟨vs, hvs, h⟩ := bind_eq_ok.mp h
    rw [← Except.ok.inj h, List.length_cons, List.length_cons, ih hvs]

mutual

/-- A well-formed tree stands for a number unless one of those it is computed from lies beyond the
doubles. -/
theorem Tree.numericValue_onlyOverflows : (t : Tree) → t.IsWellFormed →
    OnlyOverflows t.numericValue
  | .number _, _ | .constant _, _ | .variable _, _ => .ok _
  | .power f, h => f.numericValue_onlyOverflows h
  | .term t, h => t.numericValue_onlyOverflows h
  | .sum ts, h => Term.numericSum_onlyOverflows ts h.2 _
  | .call _ args, h => (Tree.numericValues_onlyOverflows args h.2).bind_ok fun _ hvalues =>
      Function.apply_onlyOverflows ((Tree.length_numericValues hvalues).trans h.1)

theorem Factor.numericValue_onlyOverflows : (f : Factor) → f.IsWellFormed →
    OnlyOverflows f.numericValue
  | ⟨base, exponent⟩, h => (base.numericValue_onlyOverflows h.1).bind fun _ =>
      (exponent.numericValue_onlyOverflows h.2).bind fun _ => Value.pow_onlyOverflows _ _

theorem Term.numericValue_onlyOverflows : (t : Term) → t.IsWellFormed →
    OnlyOverflows t.numericValue
  | ⟨_, _, top, bottom⟩, h => (Factor.numericProduct_onlyOverflows top h.1 _).bind fun _ =>
      (Factor.numericProduct_onlyOverflows bottom h.2 _).bind fun _ => Value.div_onlyOverflows _ _

theorem Factor.numericProduct_onlyOverflows : (fs : List Factor) → Factor.AllWellFormed fs →
    (v : Value) → OnlyOverflows (Factor.numericProduct v fs)
  | [], _, _ => .ok _
  | f :: rest, h, v => (f.numericValue_onlyOverflows h.1).bind fun x =>
      (v.mul_onlyOverflows x).bind fun v => Factor.numericProduct_onlyOverflows rest h.2 v

theorem Term.numericSum_onlyOverflows : (ts : List Term) → Term.AllWellFormed ts →
    (v : Value) → OnlyOverflows (Term.numericSum v ts)
  | [], _, _ => .ok _
  | t :: rest, h, v => (t.numericValue_onlyOverflows h.1).bind fun x =>
      (v.add_onlyOverflows x).bind fun v => Term.numericSum_onlyOverflows rest h.2 v

theorem Tree.numericValues_onlyOverflows : (ts : List Tree) → Tree.AllWellFormed ts →
    OnlyOverflows (Tree.numericValues ts)
  | [], _ => .ok _
  | t :: rest, h => (t.numericValue_onlyOverflows h.1).bind fun _ =>
      (Tree.numericValues_onlyOverflows rest h.2).bind fun _ => .ok _

end

namespace Formula

theorem trace_result (b : Brackets) (text : String) : (trace b text).result = do
    let t ← parse b text
    let _ ← t.text
    return t := by
  unfold trace parse
  dsimp only
  split
  · next hlexemes =>
    rw [hlexemes]
    rfl
  · next hlexemes =>
    rw [hlexemes, ok_bind]
    split
    · next hbuild =>
      rw [hbuild]
      rfl
    · next hbuild =>
      rw [hbuild, ok_bind]
      split
      · next htext =>
        rw [htext]
        rfl
      · next htext =>
        rw [htext]
        rfl

/-- Reading a text gives a tree, or fails as a misreading or with an overflow. The tree can be
simplified, expanded, evaluated in any scope and taken as a number unless there is an overflow, and
it has a text unless a number in it is beyond a limit of printing. Reading with a trace, where the
text of the tree is noted, fails for these reasons only. -/
theorem fails_only_at_limits (b : Brackets) (text : String) :
    ((∃ e, parse b text = .error e ∧ Lexeme.IsReadingFault e) ∨
      ∃ t, parse b text = .ok t ∧ OnlyOverflows t.simplify ∧ OnlyOverflows t.expand ∧
        (∀ scope, OnlyOverflows (t.evaluate scope)) ∧ OnlyOverflows t.numericValue ∧
        FailsOnly IsPrintingFault t.text) ∧
      FailsOnly (fun e => Lexeme.IsReadingFault e ∨ IsPrintingFault e) (trace b text).result := by
  rw [trace_result]
  cases hparse : parse b text with
  | error e =>
    have he : Lexeme.IsReadingFault e := parse_faults hparse
    exact ⟨.inl ⟨e, rfl, he⟩, .error (.inl he)⟩
  | ok t =>
    have h : t.IsWellFormed := parse_isWellFormed hparse
    refine ⟨.inr ⟨t, rfl, t.simplify_finishes.1, t.expand_finishes.1, h.evaluate_onlyOverflows,
      t.numericValue_onlyOverflows h, Tree.text_prints h⟩, ?_⟩
    exact ((Tree.text_prints h).mono fun _ => .inr).bind fun _ => .ok t

end Formula

end SymbolicAlgebra
