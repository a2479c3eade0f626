import Mathlib
import SymbolicAlgebra.Proofs.PhraseMeaning
import SymbolicAlgebra.Proofs.Printing
import SymbolicAlgebra.Proofs.WellFormed

/-!
# Reading a printed tree again

The text of a legible tree that was read is read again as a tree that means the same, unless a power
that is computed on the way lies beyond the doubles.
-/

namespace SymbolicAlgebra

open Outcome Formula

/-- A text that spells a meaning is read as a tree with that meaning. -/
theorem Tier.SpellsSigned.parse {w : List Char} {m : Denotation} {start : Prop}
    (h : Tier.sum.SpellsSigned start w m) :
    Formula.parse .standard (String.ofList w) = .error .overflow ∨
      ∃ t, Formula.parse .standard (String.ofList w) = .ok t ∧
        ∀ I q, m I = some q → t.meaning? I = some q := by
  obtain ⟨p, hparse, hvalue⟩ : ∃ p : Phrase .sum,
      Formula.parse .standard (String.ofList w) = p.tree ∧
        ∀ I q, m I = some q → p.value? I = some q := by
    rcases h with ⟨p, hp, hplain, hm⟩ | ⟨v, p, rfl, hp, hplain, -, hm⟩
    · exact ⟨p, hp.parse hplain.head?_ne, hm⟩
    · refine ⟨p.signed, hp.parse_signed ?_ hplain.head?_ne p.lexemes_signed, hm⟩
      rw [Text.withoutBlanks_cons (by decide)]
  rw [hparse]
  cases htree : p.tree with
  | error e => exact .inl (congrArg Except.error (p.tree_onlyOverflows e htree))
  | ok t => exact .inr ⟨t, rfl, fun I q hq => p.tree_meaning htree (hvalue I q hq)⟩

end SymbolicAlgebra
