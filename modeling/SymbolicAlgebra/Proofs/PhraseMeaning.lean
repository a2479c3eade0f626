import SymbolicAlgebra.Proofs.Overflow

/-!
# What phrases mean

A phrase stands for a number by the arithmetic of its operators, given what its operands mean. The
tree that is built from it means that number.
-/

namespace SymbolicAlgebra

open Outcome

variable (I : Interpretation)

/-- What an operator between two numbers comes to. -/
def Operator.compute? : Operator → Rat → Rat → Option Rat
  | add, a, b => some (a + b)
  | subtract, a, b => some (a - b)
  | multiply, a, b | juxtapose, a, b => some (a * b)
  | divide, a, b => quotient? a b
  | remainder, a, b => I.ofFunction .remainder [a, b]
  | raise, a, b => raise? a b
  | negate, _, _ | factorial, _, _ => none

mutual

def Phrase.value? {t : Tier} : Phrase t → Option Rat
  | .operand _ value => value.meaning? I
  | .bracketed _ _ s => s.value?
  | .call f _ _ args => do I.ofFunction f (← args.values?)
  | .atom a => a.value?
  | .negation a => do return -(← a.value?)
  | .factorial u => do I.ofFunction .factorial [← u.value?]
  | .unary u => u.value?
  | .raise u p => do raise? (← u.value?) (← p.value?)
  | .power p => p.value?
  | .multiply l o _ r => do o.compute? I (← l.value?) (← r.value?)
  | .product p => p.value?
  | .add l o _ r => do o.compute? I (← l.value?) (← r.value?)

def Arguments.values? {n : Nat} : Arguments n → Option (List Rat)
  | .last s => do return [← s.value?]
  | .cons s rest => do return (← s.value?) :: (← rest.values?)

end

variable {I}

theorem Tree.meaning?_call_of {f : Function} {args : List Tree} {qs : List Rat}
    (h : Tree.meanings? I args = some qs) :
    (Tree.call f args).meaning? I = I.ofFunction f qs := by
  simp [Tree.meaning?, h]

/-- The tree of an operator means what the operator comes to. -/
theorem Operator.apply_meaning {o : Operator} {s t c : Tree} {a b q : Rat}
    (h : o.apply [s, t] = .ok c) (ha : s.meaning? I = some a) (hb : t.meaning? I = some b)
    (hq : o.compute? I a b = some q) : c.meaning? I = some q := by
  cases o with
  | add =>
    obtain rfl := Option.some.inj hq
    exact Tree.add_meaning h ha hb
  | subtract =>
    obtain rfl := Option.some.inj hq
    exact Tree.subtract_meaning h ha hb
  | multiply =>
    obtain rfl := Option.some.inj hq
    exact Tree.multiply_meaning h ha hb
  | juxtapose =>
    obtain rfl := Option.some.inj hq
    exact Tree.multiply_meaning h ha hb
  | divide =>
    obtain ⟨hb0, rfl⟩ := quotient?_eq_some.mp hq
    exact Tree.divide_meaning h ha hb hb0
  | remainder =>
    obtain rfl := Except.ok.inj h
    have hargs : Tree.meanings? I [s, t] = some [a, b] := by simp [Tree.meanings?, ha, hb]
    exact (Tree.meaning?_call_of hargs).trans hq
  | raise =>
    obtain rfl := Except.ok.inj h
    simpa [compute?, Factor.meaning?, ha, hb] using hq
  | negate => cases hq
  | factorial => cases hq

mutual

/-- The tree that is built from a phrase means the number that the phrase stands for. -/
theorem Phrase.tree_meaning {t : Tier} : (p : Phrase t) → {c : Tree} → {q : Rat} →
    p.tree = .ok c → p.value? I = some q → c.meaning? I = some q
  | .operand _ value, c, q, h, hq => by
    obtain rfl := Except.ok.inj h
    exact hq
  | .bracketed _ _ s, c, q, h, hq => s.tree_meaning h hq
  | .call f _ _ args, c, q, h, hq => by
    obtain ⟨ts, hts, h⟩ := bind_eq_ok.mp h
    obtain ⟨qs, hqs, hq⟩ := Option.bind_eq_some_iff.mp hq
    obtain rfl := Except.ok.inj h
    exact (Tree.meaning?_call_of (args.trees_meaning hts hqs)).trans hq
  | .atom a, c, q, h, hq => a.tree_meaning h hq
  | .negation a, c, q, h, hq => by
    obtain ⟨t, ht, h⟩ := bind_eq_ok.mp h
    obtain ⟨b, hb, hq⟩ := Option.bind_eq_some_iff.mp hq
    obtain rfl := Option.some.inj hq
    exact Tree.negate_meaning h (a.tree_meaning ht hb)
  | .factorial u, c, q, h, hq => by
    obtain ⟨t, ht, h⟩ := bind_eq_ok.mp h
    obtain ⟨b, hb, hq⟩ := Option.bind_eq_some_iff.mp hq
    obtain rfl := Except.ok.inj h
    have hargs : Tree.meanings? I [t] = some [b] := by
      simp [Tree.meanings?, u.tree_meaning ht hb]
    exact (Tree.meaning?_call_of hargs).trans hq
  | .unary u, c, q, h, hq => u.tree_meaning h hq
  | .raise u p, c, q, h, hq => by
    obtain ⟨s, hs, h⟩ := bind_eq_ok.mp h
    obtain ⟨t, ht, h⟩ := bind_eq_ok.mp h
    obtain ⟨a, ha, hq⟩ := Option.bind_eq_some_iff.mp hq
    obtain ⟨b, hb, hq⟩ := Option.bind_eq_some_iff.mp hq
    exact Operator.apply_meaning (o := .raise) h (u.tree_meaning hs ha) (p.tree_meaning ht hb) hq
  | .power p, c, q, h, hq => p.tree_meaning h hq
  | .multiply l o _ r, c, q, h, hq => by
    obtain ⟨s, hs, h⟩ := bind_eq_ok.mp h
    obtain ⟨t, ht, h⟩ := bind_eq_ok.mp h
    obtain ⟨a, ha, hq⟩ := Option.bind_eq_some_iff.mp hq
    obtain ⟨b, hb, hq⟩ := Option.bind_eq_some_iff.mp hq
    exact Operator.apply_meaning h (l.tree_meaning hs ha) (r.tree_meaning ht hb) hq
  | .product p, c, q, h, hq => p.tree_meaning h hq
  | .add l o _ r, c, q, h, hq => by
    obtain ⟨s, hs, h⟩ := bind_eq_ok.mp h
    obtain ⟨t, ht, h⟩ := bind_eq_ok.mp h
    obtain ⟨a, ha, hq⟩ := Option.bind_eq_some_iff.mp hq
    obtain ⟨b, hb, hq⟩ := Option.bind_eq_some_iff.mp hq
    exact Operator.apply_meaning h (l.tree_meaning hs ha) (r.tree_meaning ht hb) hq

theorem Arguments.trees_meaning {n : Nat} : (args : Arguments n) → {ts : List Tree} →
    {qs : List Rat} → args.trees = .ok ts → args.values? I = some qs →
    Tree.meanings? I ts = some qs
  | .last s, ts, qs, h, hqs => by
    obtain ⟨t, ht, h⟩ := bind_eq_ok.mp h
    obtain ⟨q, hq, hqs⟩ := Option.bind_eq_some_iff.mp hqs
    obtain rfl := Except.ok.inj h
    obtain rfl := Option.some.inj hqs
    simp [Tree.meanings?, s.tree_meaning ht hq]
  | .cons s rest, ts, qs, h, hqs => by
    obtain ⟨t, ht, h⟩ := bind_eq_ok.mp h
    obtain ⟨rs, hrs, h⟩ := bind_eq_ok.mp h
    obtain ⟨q, hq, hqs⟩ := Option.bind_eq_some_iff.mp hqs
    obtain ⟨qs', hqs', hqs⟩ := Option.bind_eq_some_iff.mp hqs
    obtain rfl := Except.ok.inj h
    obtain rfl := Option.some.inj hqs
    exact Tree.meanings?_cons_eq_some.mpr
      ⟨q, qs', s.tree_meaning ht hq, rest.trees_meaning hrs hqs', rfl⟩

end

end SymbolicAlgebra
