import SymbolicAlgebra.Proofs.Building

/-!
# The algebra of trees

Under every interpretation the operations that build trees are those on rational numbers. The
operands are any trees that mean a number, whatever their bases and exponents; a quotient needs a
divisor other than zero.
-/

namespace SymbolicAlgebra

/-- Adding, multiplying, negating and dividing trees, unwrapping one, turning one into a term and
summing a list of them, whenever these have a result. -/
theorem Tree.algebra_meaning (I : Interpretation) (a b : Tree) (ts : List Tree) (x y : Rat)
    (qs : List Rat) (ha : a.meaning? I = some x) (hb : b.meaning? I = some y)
    (hts : meanings? I ts = some qs) :
    (∀ c, a.add b = .ok c → c.meaning? I = some (x + y)) ∧
    (∀ c, a.multiply b = .ok c → c.meaning? I = some (x * y)) ∧
    (∀ c, a.negate = .ok c → c.meaning? I = some (-x)) ∧
    (∀ u, Term.fraction a b = .ok u → y ≠ 0 → u.meaning? I = some (x / y)) ∧
    (∀ c, a.reduce = .ok c → c.meaning? I = some x) ∧
    (∀ u, a.toTerm = .ok u → u.meaning? I = some x) ∧
    ∀ c, sumOf ts = .ok c → c.meaning? I = some qs.sum := by
  refine ⟨fun c hc => ?_, fun c hc => ?_, fun c hc => ?_, fun u hu hy => ?_, fun c hc => ?_,
    fun u hu => ?_, fun c hc => ?_⟩
  · exact add_meaning hc ha hb
  · exact multiply_meaning hc ha hb
  · exact negate_meaning hc ha
  · exact Term.fraction_meaning hu ha hb hy
  · exact a.reduce_meaning hc ha
  · exact toTerm_meaning hu ha
  · exact sumOf_meaning hc hts

/-- `1 / x` and `1 / y` at `x = 2` and `y = 3`, where every operation has a result. -/
theorem Tree.algebra_meaning_of_reciprocals :
    let I : Interpretation := ⟨fun name => if name = "x" then 2 else 3, fun _ => 0, fun _ _ => none⟩
    let a : Tree := .term ⟨.one, .one, [.placeholder], [⟨.variable "x", .one⟩]⟩
    let b : Tree := .term ⟨.one, .one, [.placeholder], [⟨.variable "y", .one⟩]⟩
    (∃ c, a.add b = .ok c ∧ c.meaning? I = some (5 / 6)) ∧
    (∃ c, a.multiply b = .ok c ∧ c.meaning? I = some (1 / 6)) ∧
    (∃ c, a.negate = .ok c ∧ c.meaning? I = some (-1 / 2)) ∧
    (∃ u, Term.fraction a b = .ok u ∧ u.meaning? I = some (3 / 2)) ∧
    (∃ c, a.reduce = .ok c ∧ c.meaning? I = some (1 / 2)) ∧
    (∃ u, a.toTerm = .ok u ∧ u.meaning? I = some (1 / 2)) ∧
    ∃ c, sumOf [a, b] = .ok c ∧ c.meaning? I = some (5 / 6) := by
  intro I a b
  have ha : a.meaning? I = some (1 / 2) := by decide +kernel
  have hb : b.meaning? I = some (1 / 3) := by decide +kernel
  have hboth : meanings? I [a, b] = some [1 / 2, 1 / 3] := by decide +kernel
  obtain ⟨hadd, hmultiply, hnegate, hfraction, hreduce, htoTerm, hsumOf⟩ :=
    algebra_meaning I a b [a, b] (1 / 2) (1 / 3) [1 / 2, 1 / 3] ha hb hboth
  obtain ⟨sum, hsum⟩ := Outcome.isOk_iff.mp (by decide +kernel : (a.add b).isOk = true)
  obtain ⟨product, hproduct⟩ := Outcome.isOk_iff.mp (by decide +kernel : (a.multiply b).isOk = true)
  obtain ⟨opposite, hopposite⟩ := Outcome.isOk_iff.mp (by decide +kernel : a.negate.isOk = true)
  obtain ⟨quotient, hquotient⟩ :=
    Outcome.isOk_iff.mp (by decide +kernel : (Term.fraction a b).isOk = true)
  obtain ⟨reduced, hreduced⟩ := Outcome.isOk_iff.mp (by decide +kernel : a.reduce.isOk = true)
  obtain ⟨total, htotal⟩ := Outcome.isOk_iff.mp (by decide +kernel : (sumOf [a, b]).isOk = true)
  refine ⟨⟨sum, hsum, ?_⟩, ⟨product, hproduct, ?_⟩, ⟨opposite, hopposite, ?_⟩,
    ⟨quotient, hquotient, ?_⟩, ⟨reduced, hreduced, hreduce _ hreduced⟩, ⟨_, rfl, htoTerm _ rfl⟩,
    ⟨total, htotal, ?_⟩⟩
  · norm_num [hadd _ hsum]
  · norm_num [hmultiply _ hproduct]
  · norm_num [hnegate _ hopposite]
  · norm_num [hfraction _ hquotient (by norm_num)]
  · norm_num [hsumOf _ htotal]

end SymbolicAlgebra
