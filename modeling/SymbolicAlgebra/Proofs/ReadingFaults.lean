import SymbolicAlgebra.Proofs.Balance
import SymbolicAlgebra.Proofs.Printing
import SymbolicAlgebra.Proofs.WellFormed

/-!
# Faults of reading and printing

Reading a text fails as a misreading of its lexemes, or where a power that is computed lies beyond
the doubles. A tree that was read has a text unless such a power stands in it, or a number with more
digits than are converted.
-/

namespace SymbolicAlgebra

open Outcome

namespace Lexeme

theorem toPostfix_misreads {ls : List Lexeme} {e : Fault} (hmarks : MarksCalls ls)
    (h : toPostfix ls = .error e) : ∃ cause, e = .misread cause := by
  rcases toPostfix_cases hmarks with ⟨_, hcase, -⟩ | ⟨_, hcase, -⟩ | ⟨p, hcase, -⟩
  · exact ⟨_, Except.error.inj (h.symm.trans hcase)⟩
  · exact ⟨_, Except.error.inj (h.symm.trans hcase)⟩
  · cases h.symm.trans hcase

/-- A misreading, or an overflow. -/
def IsReadingFault (e : Fault) : Prop := e = .overflow ∨ ∃ cause, e = .misread cause

theorem buildStep_faults {operands : List Tree} {l : Lexeme} {e : Fault}
    (h : buildStep operands l = .error e) : IsReadingFault e := by
  unfold buildStep at h
  split at h
  · cases h
  · split at h
    · exact .inr ⟨_, (Except.error.inj h).symm⟩
    · next o taken rest htaken =>
      obtain ⟨hlength, -⟩ := takeOperands?_eq_some htaken
      rcases bind_eq_error.mp h with happly | ⟨t, -, h⟩
      · exact .inl (Operator.apply_arity_onlyOverflows hlength e happly)
      · cases h
  · split at h
    · exact .inr ⟨_, (Except.error.inj h).symm⟩
    · cases h
  · exact .inr ⟨_, (Except.error.inj h).symm⟩

theorem build_faults {p : List Lexeme} {e : Fault} (h : build p = .error e) : IsReadingFault e := by
  rcases bind_eq_error.mp h with hfold | ⟨operands, -, h⟩
  · exact foldlM_error (fun _ _ _ hstep => buildStep_faults hstep) hfold
  · split at h
    · cases h
    · cases h
    · exact .inr ⟨_, (Except.error.inj h).symm⟩

end Lexeme

/-- Reading fails as a misreading, or with an overflow. -/
theorem Formula.parse_faults {b : Brackets} {text : String} {e : Fault}
    (h : parse b text = .error e) : Lexeme.IsReadingFault e := by
  rcases bind_eq_error.mp h with hpostfix | ⟨p, -, h⟩
  · exact .inr (Lexeme.toPostfix_misreads (Lexeme.marksCalls_ofUnits b _) hpostfix)
  · exact Lexeme.build_faults h

/-- An overflow, or a number with too many digits to be written. -/
def IsPrintingFault (e : Fault) : Prop :=
  e = .overflow ∨ e = .tooManyDigits ∨ e = .decimalOverflow

/-- The text is found, or the computation fails with one of the faults of printing. -/
abbrev Prints {α : Type} (x : Except Fault α) : Prop := FailsOnly IsPrintingFault x

theorem Outcome.FailsOnly.prints {α : Type} {x : Except Fault α} (h : OnlyOverflows x) : Prints x :=
  h.within (.inl rfl)

namespace Value

theorem integerChars_prints (n : Int) : Prints (integerChars n) :=
  .ite (.error (.inr (.inl rfl))) (.ok _)

theorem quotientChars_prints (n : Int) (d : Nat) : Prints (quotientChars n d) :=
  .ite (.error (.inr (.inr rfl))) (.ok _)

theorem exactChars_prints (q : Rat) : Prints (exactChars q) := by
  refine .ite (integerChars_prints _) (.ite (quotientChars_prints _ _) ?_)
  exact (integerChars_prints _).bind fun _ => (integerChars_prints _).bind fun _ => .ok _

theorem toChars_prints (v : Value) : Prints v.toChars := by
  unfold toChars
  split
  · exact exactChars_prints _
  · split
    · exact .ok _
    · exact .ok _

theorem leadingChars_prints (v : Value) (shown alone signed : Bool) :
    Prints (v.leadingChars shown alone signed) :=
  .ite (.ite (.ok _) (.ite v.toChars_prints v.abs.toChars_prints)) (.ok _)

end Value

theorem embed_prints {place : Nat} {precedence : Except Fault Nat}
    {text : Except Fault (List Char)} (hprecedence : OnlyOverflows precedence)
    (htext : Prints text) : Prints (embed place precedence text) :=
  hprecedence.prints.bind fun _ => .ite htext (htext.bind fun _ => .ok _)

theorem Factor.visible_onlyOverflows (fs : List Factor) : OnlyOverflows (visible fs) :=
  .filterM (fun f => f.isOne_onlyOverflows.bind fun _ => .ok _) fs

mutual

theorem Tree.precedence_onlyOverflows : (t : Tree) → OnlyOverflows t.precedence
  | .number _ | .constant _ | .variable _ | .sum _ | .call _ _ => .ok _
  | .power f => f.precedence_onlyOverflows
  | .term t => t.precedence_onlyOverflows

theorem Factor.precedence_onlyOverflows : (f : Factor) → OnlyOverflows f.precedence
  | ⟨base, exponent⟩ =>
    exponent.isOne_onlyOverflows.bind fun _ => .ite base.precedence_onlyOverflows (.ok _)

theorem Term.precedence_onlyOverflows : (t : Term) → OnlyOverflows t.precedence
  | ⟨_, _, top, _⟩ =>
    (Factor.visible_onlyOverflows top).bind fun _ =>
      (Term.denominatorIsOne_onlyOverflows _).bind fun _ =>
        .ite (.ok _) (.ite (.ok _) (.ite (.ok _) (.ite (.ok _)
          (Factor.precedenceOfFirst_onlyOverflows top))))

theorem Factor.precedenceOfFirst_onlyOverflows : (fs : List Factor) →
    OnlyOverflows (Factor.precedenceOfFirst fs)
  | [] => .ok _
  | f :: rest => f.isOne_onlyOverflows.bind fun _ =>
      .ite (Factor.precedenceOfFirst_onlyOverflows rest) f.precedence_onlyOverflows

end

theorem Tree.argumentChars_prints {ts : List Tree} (h : ∀ t ∈ ts, Prints t.toChars) :
    Prints (argumentChars ts) := by
  induction ts with
  | nil => exact .ok _
  | cons t ts ih =>
    obtain ⟨ht, hts⟩ := List.forall_mem_cons.mp h
    exact (embed_prints t.precedence_onlyOverflows ht).bind fun _ => (ih hts).bind fun _ => .ok _

theorem Tree.callChars_prints {f : Function} {args : List Tree}
    (hlength : args.length = f.arity) (h : ∀ t ∈ args, Prints t.toChars) :
    Prints (Tree.call f args).toChars := by
  by_cases hremainder : f = .remainder
  · subst hremainder
    obtain ⟨a, b, rfl⟩ := List.length_eq_two.mp hlength
    exact (embed_prints a.precedence_onlyOverflows (h a (by simp))).bind fun _ =>
      (embed_prints b.precedence_onlyOverflows (h b (by simp))).bind fun _ => .ok _
  by_cases hfactorial : f = .factorial
  · subst hfactorial
    obtain ⟨a, rfl⟩ := List.length_eq_one_iff.mp hlength
    exact (embed_prints a.precedence_onlyOverflows (h a (by simp))).bind fun _ => .ok _
  · rw [Tree.callChars_eq hremainder hfactorial]
    exact (argumentChars_prints h).bind fun _ => .ok _

mutual

/-- A well-formed tree has a text unless a number in it is beyond a limit of printing. -/
theorem Tree.toChars_prints : (t : Tree) → t.IsWellFormed → Prints t.toChars
  | .number v, _ => v.toChars_prints
  | .constant _, _ | .variable _, _ | .sum [], _ => .ok _
  | .power f, h => f.toChars_prints h
  | .term t, h => t.toChars_prints h true
  | .sum (t :: rest), h => (t.toChars_prints h.2.1 true).bind fun _ =>
      (Term.laterChars_prints rest h.2.2).bind fun _ => .ok _
  | .call _ args, h => Tree.callChars_prints h.1 (Tree.allPrint args h.2)

theorem Factor.toChars_prints : (f : Factor) → f.IsWellFormed → Prints f.toChars
  | ⟨base, exponent⟩, h => by
    have hbase := base.toChars_prints h.1
    refine exponent.isOne_onlyOverflows.prints.bind fun _ => .ite ?_ ?_
    · exact embed_prints base.precedence_onlyOverflows hbase
    · refine (embed_prints base.precedence_onlyOverflows hbase).bind fun _ => ?_
      exact (embed_prints exponent.precedence_onlyOverflows (exponent.toChars_prints h.2)).bind
        fun _ => .ok _

theorem Term.toChars_prints : (t : Term) → t.IsWellFormed → (signed : Bool) →
    Prints (t.toChars signed)
  | ⟨multiplier, divisor, top, bottom⟩, h, signed => by
    refine .ite (.ok _) ?_
    refine (Factor.visible_onlyOverflows top).prints.bind fun _ => ?_
    refine (Factor.visible_onlyOverflows bottom).prints.bind fun _ => ?_
    refine (Term.denominatorIsOne_onlyOverflows _).prints.bind fun _ => ?_
    refine (multiplier.leadingChars_prints _ _ _).bind fun _ => ?_
    refine (Factor.visibleChars_prints top h.1 _).bind fun _ => .ite ?_ (.ok _)
    refine (divisor.leadingChars_prints _ _ _).bind fun _ => ?_
    exact (Factor.visibleChars_prints bottom h.2 _).bind fun _ => .ok _

theorem Factor.visibleChars_prints : (fs : List Factor) → Factor.AllWellFormed fs →
    (place : Nat) → Prints (Factor.visibleChars place fs)
  | [], _, _ => .ok _
  | f :: rest, h, place => by
    have hrest := Factor.visibleChars_prints rest h.2 place
    refine f.isOne_onlyOverflows.prints.bind fun _ => .ite hrest ?_
    exact (embed_prints f.precedence_onlyOverflows (f.toChars_prints h.1)).bind fun _ =>
      hrest.bind fun _ => .ok _

theorem Term.laterChars_prints : (ts : List Term) → Term.AllWellFormed ts →
    Prints (Term.laterChars ts)
  | [], _ => .ok _
  | t :: rest, h => (t.toChars_prints h.1 false).bind fun _ =>
      (Term.laterChars_prints rest h.2).bind fun _ => .ok _

theorem Tree.allPrint : (ts : List Tree) → Tree.AllWellFormed ts → ∀ t ∈ ts, Prints t.toChars
  | [], _ => by simp
  | t :: rest, h => List.forall_mem_cons.mpr ⟨t.toChars_prints h.1, Tree.allPrint rest h.2⟩

end

theorem Tree.text_prints {t : Tree} (h : t.IsWellFormed) : Prints t.text :=
  (t.toChars_prints h).bind fun _ => .ok _

end SymbolicAlgebra
