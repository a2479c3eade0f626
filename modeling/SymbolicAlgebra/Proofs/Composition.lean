import SymbolicAlgebra.Proofs.Building

/-!
# Compositional properties

A property of trees is compositional if a tree has it whenever its parts have it, and its parts
have it whenever it does: numbers have it, and whether constants, variables and calls of a function
have it is left open. Of a term this is asked only if its factors are what folding leaves, so that
the property may say what terms look like. Building a tree puts together parts of its operands,
numbers and folded terms, so no operation makes a tree without the property out of trees with it.
The lemmas go through the functions in the order of their definition.
-/

namespace SymbolicAlgebra

open Outcome

/-- Folding a power leaves the factor. -/
def Factor.IsResidue (f : Factor) : Prop :=
  ∃ (base exponent : Tree) (c v : Value), base.absorb exponent c = .ok (v, some f)

/-- A property that passes from a tree to its parts and from the parts to the tree. A term may lack
it if its factors are not folded, a sum of nothing may lack it, and a call may need the right number
of arguments. -/
structure Tree.Compositional (P : Tree → Prop) : Prop where
  number (v : Value) : P (.number v)
  power_iff {f : Factor} : P (.power f) ↔ P f.base ∧ P f.exponent
  of_term {t : Term} : P (.term t) → ∀ f ∈ t.top ++ t.bottom, P (.power f)
  withMultiplier {t : Term} (v : Value) : P (.term t) → P (.term { t with multiplier := v })
  term {m d : Value} {top bottom : List Factor} :
    (∀ f ∈ top ++ bottom, f.IsResidue ∧ P (.power f)) →
      P (.term ⟨m, d, Term.side top, Term.side bottom⟩)
  of_sum {ts : List Term} : P (.sum ts) → ∀ t ∈ ts, P (.term t)
  sum {ts : List Term} : ts ≠ [] → (∀ t ∈ ts, P (.term t)) → P (.sum ts)
  of_call {f : Function} {args : List Tree} : P (.call f args) → ∀ a ∈ args, P a
  call {f : Function} {args args' : List Tree} : P (.call f args) → args'.length = args.length →
    (∀ a ∈ args', P a) → P (.call f args')

theorem Factor.forall_mem_side {p : Factor → Prop} {fs : List Factor} (hp : p placeholder)
    (h : ∀ f ∈ fs, p f) : ∀ f ∈ Term.side fs, p f := by
  cases fs with
  | nil => exact List.forall_mem_singleton.mpr hp
  | cons f fs => exact h

section
variable {P : Tree → Prop}

mutual

/-- A compositional property passes from a tree to every tree within it. -/
theorem Tree.of_mem_nodes (hP : Tree.Compositional P) : (t : Tree) → P t → ∀ s ∈ t.nodes, P s
  | .number _, h | .constant _, h | .variable _, h => List.forall_mem_singleton.mpr h
  | .power f, h => f.of_mem_nodes hP h
  | .term t, h => t.of_mem_nodes hP h
  | .sum ts, h => List.forall_mem_cons.mpr ⟨h, Term.of_mem_nodesOfAll hP ts (hP.of_sum h)⟩
  | .call _ args, h => List.forall_mem_cons.mpr ⟨h, Tree.of_mem_nodesOfAll hP args (hP.of_call h)⟩

theorem Factor.of_mem_nodes (hP : Tree.Compositional P) : (f : Factor) → P (.power f) →
    ∀ s ∈ f.nodes, P s
  | ⟨base, exponent⟩, h => by
    obtain ⟨hbase, hexponent⟩ := hP.power_iff.mp h
    exact List.forall_mem_cons.mpr ⟨h, List.forall_mem_append.mpr
      ⟨base.of_mem_nodes hP hbase, exponent.of_mem_nodes hP hexponent⟩⟩

theorem Term.of_mem_nodes (hP : Tree.Compositional P) : (t : Term) → P (.term t) →
    ∀ s ∈ t.nodes, P s
  | ⟨_, _, top, bottom⟩, h => by
    obtain ⟨htop, hbottom⟩ := List.forall_mem_append.mp (hP.of_term h)
    exact List.forall_mem_cons.mpr ⟨h, List.forall_mem_append.mpr
      ⟨Factor.of_mem_nodesOfAll hP top htop, Factor.of_mem_nodesOfAll hP bottom hbottom⟩⟩

theorem Factor.of_mem_nodesOfAll (hP : Tree.Compositional P) : (fs : List Factor) →
    (∀ f ∈ fs, P (.power f)) → ∀ s ∈ Factor.nodesOfAll fs, P s
  | [], _ => by simp [Factor.nodesOfAll]
  | f :: rest, h => by
    obtain ⟨hf, hrest⟩ := List.forall_mem_cons.mp h
    exact List.forall_mem_append.mpr ⟨f.of_mem_nodes hP hf, Factor.of_mem_nodesOfAll hP rest hrest⟩

theorem Term.of_mem_nodesOfAll (hP : Tree.Compositional P) : (ts : List Term) →
    (∀ t ∈ ts, P (.term t)) → ∀ s ∈ Term.nodesOfAll ts, P s
  | [], _ => by simp [Term.nodesOfAll]
  | t :: rest, h => by
    obtain ⟨ht, hrest⟩ := List.forall_mem_cons.mp h
    exact List.forall_mem_append.mpr ⟨t.of_mem_nodes hP ht, Term.of_mem_nodesOfAll hP rest hrest⟩

theorem Tree.of_mem_nodesOfAll (hP : Tree.Compositional P) : (ts : List Tree) →
    (∀ t ∈ ts, P t) → ∀ s ∈ Tree.nodesOfAll ts, P s
  | [], _ => by simp [Tree.nodesOfAll]
  | t :: rest, h => by
    obtain ⟨ht, hrest⟩ := List.forall_mem_cons.mp h
    exact List.forall_mem_append.mpr ⟨t.of_mem_nodes hP ht, Tree.of_mem_nodesOfAll hP rest hrest⟩

end

end

variable {P : Tree → Prop} (hP : Tree.Compositional P)
include hP

theorem Factor.first_inherits {t : Tree} (h : P t) : P (.power ⟨t, .one⟩) :=
  hP.power_iff.mpr ⟨h, hP.number _⟩

theorem Tree.toFactor_inherits {t : Tree} (h : P t) : P (.power t.toFactor) := by
  cases t with
  | power f => exact h
  | _ => exact Factor.first_inherits hP h

namespace Term

theorem ofValue_inherits (v : Value) : P (.term (ofValue v)) := hP.term (by simp)

theorem top_inherits {t : Term} (h : P (.term t)) : ∀ f ∈ t.top, P (.power f) :=
  (List.forall_mem_append.mp (hP.of_term h)).1

theorem bottom_inherits {t : Term} (h : P (.term t)) : ∀ f ∈ t.bottom, P (.power f) :=
  (List.forall_mem_append.mp (hP.of_term h)).2

end Term

mutual

theorem Tree.reduce_inherits : (t : Tree) → {c : Tree} → t.reduce = .ok c → P t → P c
  | .power f, c, h, ht => f.reduce_inherits h ht
  | .term t, c, h, ht => t.reduce_inherits h ht
  | .sum [t], c, h, ht => t.reduce_inherits h (hP.of_sum ht t List.mem_cons_self)
  | .number _, c, h, ht | .constant _, c, h, ht | .variable _, c, h, ht
  | .sum [], c, h, ht | .sum (_ :: _ :: _), c, h, ht | .call _ _, c, h, ht => by
    obtain rfl := Except.ok.inj h
    exact ht

theorem Factor.reduce_inherits : (f : Factor) → {c : Tree} → f.reduce = .ok c → P (.power f) → P c
  | ⟨base, exponent⟩, c, h, hf => by
    obtain ⟨one, -, h⟩ := bind_eq_ok.mp h
    cases one with
    | false =>
      obtain rfl := Except.ok.inj h
      exact hf
    | true => exact base.reduce_inherits h (hP.power_iff.mp hf).1

theorem Term.reduce_inherits : (t : Term) → {c : Tree} → t.reduce = .ok c → P (.term t) → P c
  | ⟨multiplier, divisor, [⟨base, exponent⟩], bottom⟩, c, h, ht => by
    obtain ⟨whole, -, h⟩ := bind_eq_ok.mp h
    cases whole with
    | false =>
      obtain rfl := Except.ok.inj h
      exact ht
    | true =>
      obtain ⟨one, -, h⟩ := bind_eq_ok.mp h
      cases one with
      | true =>
        obtain rfl := Except.ok.inj h
        exact hP.number _
      | false =>
        simp only [Bool.false_eq_true, if_false] at h
        split at h
        · obtain ⟨first, -, h⟩ := bind_eq_ok.mp h
          cases first with
          | true =>
            have hf := Term.top_inherits hP ht ⟨base, exponent⟩ List.mem_cons_self
            exact base.reduce_inherits h (hP.power_iff.mp hf).1
          | false =>
            obtain rfl := Except.ok.inj h
            exact ht
        · obtain rfl := Except.ok.inj h
          exact ht
  | ⟨_, _, [], _⟩, c, h, ht | ⟨_, _, _ :: _ :: _, _⟩, c, h, ht => by
    rw [Term.reduce] at h
    · obtain rfl := Except.ok.inj h
      exact ht
    · simp

end

theorem Term.scale_inherits {t u : Term} {v : Value} (h : t.scale v = .ok u) (ht : P (.term t)) :
    P (.term u) := by
  obtain ⟨w, -, h⟩ := bind_eq_ok.mp h
  obtain rfl := Except.ok.inj h
  exact hP.withMultiplier w ht

theorem Term.opposite_inherits {t : Term} {c : Tree}
    (h : (do (← t.scale .negativeOne).reduce : Except Fault Tree) = .ok c) (ht : P (.term t)) :
    P c := by
  obtain ⟨u, hu, hc⟩ := bind_eq_ok.mp h
  exact u.reduce_inherits hP hc (scale_inherits hP hu ht)

theorem Tree.absorb_inherits : (base : Tree) → {exponent : Tree} → {c v : Value} →
    {kept : Option Factor} → base.absorb exponent c = .ok (v, kept) → P (.power ⟨base, exponent⟩) →
    ∀ f ∈ kept.toList, P (.power f) := by
  intro base exponent c v kept h hf
  rcases absorb_cases h with ⟨-, -, rfl⟩ | ⟨w, -, -, rfl⟩ | ⟨-, rfl, -⟩ | ⟨-, -, o, ho, rfl, -⟩
  · simp
  · simp
  · simpa using hf
  · suffices hkept : P o by simpa using Factor.first_inherits hP hkept
    have hbase : P base := (hP.power_iff.mp hf).1
    cases base with
    | number w =>
      obtain ⟨w', -, rfl⟩ := ho
      exact hP.number _
    | power f =>
      obtain ⟨b, e⟩ := f
      obtain ⟨k, kept, hkept, ho⟩ := ho
      have hresidue : ∀ f ∈ kept.toList ++ [], f.IsResidue ∧ P (.power f) := by
        rw [List.append_nil]
        refine fun f hf => ⟨?_, b.absorb_inherits hkept hbase f hf⟩
        obtain rfl := Option.mem_toList.mp hf
        exact ⟨b, e, _, _, hkept⟩
      exact Term.opposite_inherits hP ho (hP.term hresidue)
    | term t => exact Term.opposite_inherits hP ho hbase
    | _ => exact ho.elim

namespace Term

theorem collect_inherits {c v : Value} {fs kept : List Factor} (h : collect c fs = .ok (v, kept))
    (hfs : ∀ f ∈ fs, P (.power f)) : ∀ f ∈ kept, f.IsResidue ∧ P (.power f) := by
  intro g hg
  obtain ⟨⟨base, exponent⟩, hf, w, w', hstays⟩ := exists_absorb_of_mem h hg
  exact ⟨⟨base, exponent, w, w', hstays⟩,
    base.absorb_inherits hP hstays (hfs _ hf) g (Option.mem_toList.mpr rfl)⟩

theorem of_inherits {m d : Value} {top bottom : List Factor} {t : Term}
    (h : of m d top bottom = .ok t) (htop : ∀ f ∈ top, P (.power f))
    (hbottom : ∀ f ∈ bottom, P (.power f)) : P (.term t) := by
  obtain ⟨⟨v, keptTop⟩, hkept, h⟩ := bind_eq_ok.mp h
  obtain ⟨⟨w, keptBottom⟩, hkept', h⟩ := bind_eq_ok.mp h
  obtain rfl := Except.ok.inj h
  exact hP.term (List.forall_mem_append.mpr
    ⟨collect_inherits hP hkept htop, collect_inherits hP hkept' hbottom⟩)

theorem ofFactor_inherits {f : Factor} {t : Term} (h : ofFactor f = .ok t) (hf : P (.power f)) :
    P (.term t) := of_inherits hP h (by simpa using hf) (by simp)

theorem fraction_inherits {s t : Tree} {u : Term} (h : fraction s t = .ok u) (hs : P s) (ht : P t) :
    P (.term u) :=
  of_inherits hP h (by simpa using Tree.toFactor_inherits hP hs)
    (by simpa using Tree.toFactor_inherits hP ht)

end Term

theorem Tree.toTerm_inherits {t : Tree} {u : Term} (h : t.toTerm = .ok u) (ht : P t) :
    P (.term u) := by
  cases t with
  | number v =>
    obtain rfl := Except.ok.inj h
    exact Term.ofValue_inherits hP v
  | term t =>
    obtain rfl := Except.ok.inj h
    exact ht
  | sum ts =>
    obtain ⟨c, hc, h⟩ := bind_eq_ok.mp h
    have hreduced := Tree.reduce_inherits hP _ hc ht
    cases c with
    | number v =>
      obtain rfl := Except.ok.inj h
      exact Term.ofValue_inherits hP v
    | term t =>
      obtain rfl := Except.ok.inj h
      exact hreduced
    | _ => exact Term.ofFactor_inherits hP h (toFactor_inherits hP hreduced)
  | _ => exact Term.ofFactor_inherits hP h (toFactor_inherits hP ht)

/-- The terms of a sum are never none, whatever it is the sum of. -/
theorem Term.summed_inherits {ts ss : List Term} (h : summed ts = .ok ss)
    (hts : ∀ t ∈ ts, P (.term t)) : P (.sum ss) := by
  have hperm := sorted_perm h
  have hall : ∀ t ∈ if ts.isEmpty then [zero] else ts, P (.term t) := by
    split
    · exact List.forall_mem_singleton.mpr (ofValue_inherits hP _)
    · exact hts
  refine hP.sum (fun hnil => ?_) fun t ht => hall t (hperm.mem_iff.mp ht)
  rw [hnil] at hperm
  cases ts <;> simp at hperm

theorem Tree.sumOf_inherits {ts : List Tree} {c : Tree} (h : sumOf ts = .ok c)
    (hts : ∀ t ∈ ts, P t) : P c := by
  obtain ⟨us, hus, h⟩ := bind_eq_ok.mp h
  obtain ⟨ss, hss, h⟩ := bind_eq_ok.mp h
  obtain rfl := Except.ok.inj h
  refine Term.summed_inherits hP hss fun u hu => ?_
  obtain ⟨t, ht, htu⟩ := mem_mapM hus hu
  exact toTerm_inherits hP htu (hts t ht)

theorem Tree.summands_inherit {t : Tree} {ts : List Term} (h : t.summands = .ok ts) (ht : P t) :
    ∀ u ∈ ts, P (.term u) := by
  have hterm : ∀ {s : Tree}, (do return [← s.toTerm] : Except Fault (List Term)) = .ok ts →
      P s → ∀ u ∈ ts, P (.term u) := by
    intro s h hs
    obtain ⟨u, hu, h⟩ := bind_eq_ok.mp h
    obtain rfl := Except.ok.inj h
    exact List.forall_mem_singleton.mpr (toTerm_inherits hP hu hs)
  match t with
  | .sum [t] =>
    obtain ⟨zero, -, h⟩ := bind_eq_ok.mp h
    cases zero with
    | true =>
      obtain rfl := Except.ok.inj h
      simp
    | false =>
      obtain rfl := Except.ok.inj h
      exact hP.of_sum ht
  | .sum [] | .sum (_ :: _ :: _) =>
    obtain rfl := Except.ok.inj h
    exact hP.of_sum ht
  | .number _ | .constant _ | .variable _ | .power _ | .term _ | .call _ _ => exact hterm h ht

namespace Term

theorem withCommonDenominator_inherits {s t u : Term} (h : s.withCommonDenominator t = .ok u)
    (hs : P (.term s)) (ht : P (.term t)) : P (.term u) := by
  unfold withCommonDenominator at h
  split at h
  · obtain rfl := Except.ok.inj h
    exact hs
  · obtain ⟨v, -, h⟩ := bind_eq_ok.mp h
    obtain ⟨w, -, h⟩ := bind_eq_ok.mp h
    exact of_inherits hP h (List.forall_mem_append.mpr ⟨top_inherits hP hs, bottom_inherits hP ht⟩)
      (List.forall_mem_append.mpr ⟨bottom_inherits hP hs, bottom_inherits hP ht⟩)

theorem add_inherits {s t : Term} {c : Tree} (h : s.add t = .ok c) (hs : P (.term s))
    (ht : P (.term t)) : P c := by
  obtain ⟨left, hleft, h⟩ := bind_eq_ok.mp h
  obtain ⟨right, hright, h⟩ := bind_eq_ok.mp h
  have hl := withCommonDenominator_inherits hP hleft hs ht
  have hr := withCommonDenominator_inherits hP hright ht hs
  split at h
  · obtain ⟨v, -, h⟩ := bind_eq_ok.mp h
    obtain rfl := Except.ok.inj h
    exact hP.withMultiplier v hl
  · obtain ⟨whole, -, h⟩ := bind_eq_ok.mp h
    cases whole with
    | true =>
      obtain ⟨ss, hss, h⟩ := bind_eq_ok.mp h
      obtain rfl := Except.ok.inj h
      exact summed_inherits hP hss (by simp [hl, hr])
    | false =>
      obtain ⟨u, hu, h⟩ := bind_eq_ok.mp h
      obtain ⟨v, hv, h⟩ := bind_eq_ok.mp h
      obtain ⟨numerators, hnumerators, h⟩ := bind_eq_ok.mp h
      obtain ⟨r, hr', h⟩ := bind_eq_ok.mp h
      obtain rfl := Except.ok.inj h
      have hu := of_inherits hP hu (top_inherits hP hl) (by simp)
      have hv := of_inherits hP hv (top_inherits hP hr) (by simp)
      have hsum : P (.sum numerators) := summed_inherits hP hnumerators (by simp [hu, hv])
      exact of_inherits hP hr' (by simpa using Factor.first_inherits hP hsum)
        (bottom_inherits hP hl)

theorem mul_inherits {s t u : Term} (h : s.mul t = .ok u) (hs : P (.term s)) (ht : P (.term t)) :
    P (.term u) := by
  obtain ⟨v, -, h⟩ := bind_eq_ok.mp h
  obtain ⟨w, -, h⟩ := bind_eq_ok.mp h
  exact of_inherits hP h (List.forall_mem_append.mpr ⟨top_inherits hP hs, top_inherits hP ht⟩)
    (List.forall_mem_append.mpr ⟨bottom_inherits hP hs, bottom_inherits hP ht⟩)

theorem times_inherits {s u : Term} {t : Tree} (h : s.times t = .ok u) (hs : P (.term s))
    (ht : P t) : P (.term u) := by
  have hfactor : of s.multiplier s.divisor (s.top ++ [t.toFactor]) s.bottom = .ok u →
      P (.term u) := fun h => of_inherits hP h (List.forall_mem_append.mpr
    ⟨top_inherits hP hs, by simpa using Tree.toFactor_inherits hP ht⟩) (bottom_inherits hP hs)
  cases t with
  | term t => exact mul_inherits hP h hs ht
  | number v => exact scale_inherits hP h hs
  | _ => exact hfactor h

end Term

namespace Tree

variable {s t c : Tree}

theorem add_inherits (h : s.add t = .ok c) (hs : P s) (ht : P t) : P c := by
  unfold add at h
  split at h
  · obtain ⟨v, -, rfl⟩ := map_eq_ok.mp h
    exact hP.number _
  · exact Term.add_inherits hP h hs ht
  · split at h
    · obtain ⟨ss, hss, h⟩ := bind_eq_ok.mp h
      obtain ⟨ts, hts, h⟩ := bind_eq_ok.mp h
      obtain ⟨us, hus, h⟩ := bind_eq_ok.mp h
      obtain rfl := Except.ok.inj h
      exact Term.summed_inherits hP hus
        (List.forall_mem_append.mpr ⟨summands_inherit hP hss hs, summands_inherit hP hts ht⟩)
    · split at h
      · exact sumOf_inherits hP h (by simp [hs, ht])
      · obtain ⟨u, hu, h⟩ := bind_eq_ok.mp h
        obtain ⟨v, hv, h⟩ := bind_eq_ok.mp h
        exact Term.add_inherits hP h (toTerm_inherits hP hu hs) (toTerm_inherits hP hv ht)

theorem multiply_inherits (h : s.multiply t = .ok c) (hs : P s) (ht : P t) : P c := by
  unfold multiply at h
  split at h
  · obtain ⟨v, -, rfl⟩ := map_eq_ok.mp h
    exact hP.number _
  · obtain ⟨r, hr, h⟩ := bind_eq_ok.mp h
    have hreduced := reduce_inherits hP _ hr ht
    split at h
    · obtain ⟨u, hu, h⟩ := bind_eq_ok.mp h
      obtain rfl := Except.ok.inj h
      exact Term.times_inherits hP hu hreduced hs
    · obtain ⟨u, hu, h⟩ := bind_eq_ok.mp h
      obtain rfl := Except.ok.inj h
      have hfirst := Factor.first_inherits hP hs
      exact Term.of_inherits hP hu (by simpa using ⟨hfirst, toFactor_inherits hP hreduced⟩) (by simp)
  · obtain ⟨u, hu, h⟩ := bind_eq_ok.mp h
    obtain ⟨v, hv, h⟩ := bind_eq_ok.mp h
    obtain rfl := Except.ok.inj h
    exact Term.times_inherits hP hv (toTerm_inherits hP hu hs) ht

theorem negate_inherits (h : t.negate = .ok c) (ht : P t) : P c :=
  multiply_inherits hP h ht (hP.number _)

theorem divide_inherits (h : s.divide t = .ok c) (hs : P s) (ht : P t) : P c := by
  obtain ⟨u, hu, h⟩ := bind_eq_ok.mp h
  exact multiply_inherits hP h hs (Term.fraction_inherits hP hu (hP.number _) ht)

theorem subtract_inherits (h : s.subtract t = .ok c) (hs : P s) (ht : P t) : P c := by
  obtain ⟨u, hu, h⟩ := bind_eq_ok.mp h
  exact add_inherits hP h hs (negate_inherits hP hu ht)

end Tree

end SymbolicAlgebra
