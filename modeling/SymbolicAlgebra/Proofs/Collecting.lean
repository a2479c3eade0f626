import SymbolicAlgebra.Proofs.Outcome
import SymbolicAlgebra.Tree.Construction

/-!
# Collecting factors into a coefficient

Factors are folded from the first to the last: each one changes the coefficient that the next one
finds, and what stays of it is kept before what stays of the others.
-/

namespace SymbolicAlgebra.Term

open Outcome

theorem collect_nil (c : Value) : collect c [] = .ok (c, []) := rfl

theorem collect_onto (fs : List Factor) (c : Value) (kept : List Factor) :
    fs.foldlM
      (fun (c, kept) f => do
        let (c, stays) ← f.base.absorb f.exponent c
        return (c, kept ++ stays.toList))
      (c, kept) = do
        let (c, more) ← collect c fs
        return (c, kept ++ more) := by
  induction fs generalizing c kept with
  | nil => simp [collect]
  | cons f fs ih =>
    simp only [collect, List.foldlM_cons, bind_assoc]
    refine bind_congr fun s => ?_
    simp only [pure_bind, List.nil_append]
    rw [ih, ih]
    simp

theorem collect_append (c : Value) (fs gs : List Factor) :
    collect c (fs ++ gs) = do
      let (c, kept) ← collect c fs
      let (c, more) ← collect c gs
      return (c, kept ++ more) := by
  rw [collect, List.foldlM_append]
  exact bind_congr fun s => collect_onto gs s.1 s.2

theorem collect_singleton (c : Value) (f : Factor) :
    collect c [f] = do
      let (c, stays) ← f.base.absorb f.exponent c
      return (c, stays.toList) := by
  simp [collect]

theorem collect_cons (c : Value) (f : Factor) (fs : List Factor) :
    collect c (f :: fs) = do
      let (c, stays) ← f.base.absorb f.exponent c
      let (c, kept) ← collect c fs
      return (c, stays.toList ++ kept) := by
  rw [← List.singleton_append, collect_append, collect_singleton, bind_assoc]
  rfl

theorem collect_cons_eq_ok {c v : Value} {f : Factor} {fs kept : List Factor} :
    collect c (f :: fs) = .ok (v, kept) ↔ ∃ w stays rest,
      f.base.absorb f.exponent c = .ok (w, stays) ∧ collect w fs = .ok (v, rest) ∧
        kept = stays.toList ++ rest := by
  rw [collect_cons]
  constructor
  · intro h
    obtain ⟨⟨w, stays⟩, hw, h⟩ := bind_eq_ok.mp h
    obtain ⟨⟨v', rest⟩, hv, h⟩ := bind_eq_ok.mp h
    obtain ⟨rfl, rfl⟩ := Prod.mk.inj (Except.ok.inj h)
    exact ⟨w, stays, rest, hw, hv, rfl⟩
  · rintro ⟨w, stays, rest, hw, hv, rfl⟩
    simp only [hw, hv, ok_bind, pure_eq_ok]

/-- What is kept in the end is what stays of one of the factors. -/
theorem exists_absorb_of_mem {c v : Value} {fs kept : List Factor} {g : Factor}
    (h : collect c fs = .ok (v, kept)) (hg : g ∈ kept) :
    ∃ f ∈ fs, ∃ w w', f.base.absorb f.exponent w = .ok (w', some g) := by
  induction fs generalizing c kept with
  | nil =>
    obtain ⟨-, rfl⟩ := Prod.mk.inj (Except.ok.inj h)
    cases hg
  | cons f fs ih =>
    obtain ⟨w, stays, rest, hw, hrest, rfl⟩ := collect_cons_eq_ok.mp h
    rcases List.mem_append.mp hg with hg | hg
    · obtain rfl : stays = some g := by simpa using hg
      exact ⟨f, List.mem_cons_self, c, w, hw⟩
    · obtain ⟨f', hf', hstays⟩ := ih hrest hg
      exact ⟨f', List.mem_cons_of_mem _ hf', hstays⟩

end SymbolicAlgebra.Term
