import SymbolicAlgebra.Proofs.Rendering

/-!
# Signs, sums and products of phrases

A sign before a phrase belongs to the first factor of its first product. At the beginning of a text
it is a factor `-1` before that factor, which `Phrase.signed` puts there; elsewhere it is an operator
on the first atom, which `Phrase.negated` puts there. Both come to the same if the first factor is an
atom. Phrases are added and multiplied by putting their lexemes side by side.
-/

namespace SymbolicAlgebra

namespace Phrase

open Formula (minusOne)

variable {I : Interpretation} {a b q : Rat}

/-- The phrase with a factor `-1` before its first factor. -/
def signed {t : Tier} : Phrase t → Phrase t
  | .power p => .multiply (.power minusOne) .juxtapose (by decide) p
  | .multiply l o h r => .multiply l.signed o h r
  | .product p => .product p.signed
  | .add l o h r => .add l.signed o h r
  | p => p

/-- The phrase with its first atom negated. -/
def negated {t : Tier} : Phrase t → Phrase t
  | .atom a => .negation a
  | .unary u => .unary u.negated
  | .power p => .power p.negated
  | .multiply l o h r => .multiply l.negated o h r
  | .product p => .product p.negated
  | .add l o h r => .add l.negated o h r
  | p => p

/-- The first factor of a phrase is an atom. -/
def LeadsWithAtom {t : Tier} : Phrase t → Prop
  | .atom _ => True
  | .unary u => u.LeadsWithAtom
  | .power p => p.LeadsWithAtom
  | .multiply l _ _ _ => l.LeadsWithAtom
  | .product p => p.LeadsWithAtom
  | .add l _ _ _ => l.LeadsWithAtom
  | _ => False

theorem lexemes_signed_product : (p : Phrase .product) →
    p.signed.lexemes = minusOne.lexemes ++ .operator .juxtapose :: p.lexemes
  | .power p => rfl
  | .multiply l o h r => by simp [signed, lexemes, l.lexemes_signed_product]

theorem lexemes_signed : (p : Phrase .sum) →
    p.signed.lexemes = minusOne.lexemes ++ .operator .juxtapose :: p.lexemes
  | .product p => by simp [signed, lexemes, p.lexemes_signed_product]
  | .add l o h r => by simp [signed, lexemes, l.lexemes_signed]

theorem lexemes_negated {t : Tier} : (p : Phrase t) → p.LeadsWithAtom →
    p.negated.lexemes = .operator .negate :: p.lexemes
  | .atom a, _ => rfl
  | .unary u, h => by simpa [negated, lexemes] using u.lexemes_negated h
  | .power p, h => by simpa [negated, lexemes] using p.lexemes_negated h
  | .multiply l o _ r, h => by simp [negated, lexemes, l.lexemes_negated h]
  | .product p, h => by simpa [negated, lexemes] using p.lexemes_negated h
  | .add l o _ r, h => by simp [negated, lexemes, l.lexemes_negated h]

theorem value?_multiply {l : Phrase .product} {o : Operator} {h : o ∈ Operator.multiplicative}
    {r : Phrase .power} :
    (multiply l o h r).value? I = some q ↔
      ∃ a b, l.value? I = some a ∧ r.value? I = some b ∧ o.compute? I a b = some q := by
  simp [value?, Option.bind_eq_some_iff]

theorem value?_add {l : Phrase .sum} {o : Operator} {h : o ∈ Operator.additive}
    {r : Phrase .product} :
    (add l o h r).value? I = some q ↔
      ∃ a b, l.value? I = some a ∧ r.value? I = some b ∧ o.compute? I a b = some q := by
  simp [value?, Option.bind_eq_some_iff]

theorem value?_negated_power : (p : Phrase .power) → p.LeadsWithAtom → p.value? I = some q →
    p.negated.value? I = some (-q)
  | .unary (.atom a), _, h => by
    have ha : a.value? I = some q := h
    simp [negated, value?, ha]

theorem value?_negated_product : (p : Phrase .product) → p.LeadsWithAtom → {q : Rat} →
    p.signed.value? I = some q → p.negated.value? I = some q
  | .power p, hp, q, h => by
    obtain ⟨a, b, ha, hb, hq⟩ := value?_multiply.mp h
    obtain rfl := Option.some.inj ha
    obtain rfl := Option.some.inj hq
    rw [neg_one_mul]
    exact p.value?_negated_power hp hb
  | .multiply l o _ r, hp, q, h => by
    obtain ⟨a, b, ha, hb, hq⟩ := value?_multiply.mp h
    exact value?_multiply.mpr ⟨a, b, l.value?_negated_product hp ha, hb, hq⟩

theorem value?_negated : (p : Phrase .sum) → p.LeadsWithAtom → {q : Rat} →
    p.signed.value? I = some q → p.negated.value? I = some q
  | .product p, hp, q, h => p.value?_negated_product hp h
  | .add l o _ r, hp, q, h => by
    obtain ⟨a, b, ha, hb, hq⟩ := value?_add.mp h
    exact value?_add.mpr ⟨a, b, l.value?_negated hp ha, hb, hq⟩

/-- The sum of two sums, the first one to the left of all terms of the second. -/
def plus (l : Phrase .sum) : Phrase .sum → Phrase .sum
  | .product p => .add l .add (by decide) p
  | .add r o h p => .add (plus l r) o h p

theorem lexemes_plus (l : Phrase .sum) : (r : Phrase .sum) →
    (l.plus r).lexemes = l.lexemes ++ .operator .add :: r.lexemes
  | .product p => by simp [plus, lexemes]
  | .add r o h p => by simp [plus, lexemes, l.lexemes_plus r]

theorem signed_plus (l : Phrase .sum) : (r : Phrase .sum) →
    (l.plus r).signed = l.signed.plus r
  | .product p => by simp [plus, signed]
  | .add r o h p => by simp [plus, signed, l.signed_plus r]

theorem leadsWithAtom_plus {l : Phrase .sum} (hl : l.LeadsWithAtom) : (r : Phrase .sum) →
    (l.plus r).LeadsWithAtom
  | .product _ => by simpa [plus, LeadsWithAtom] using hl
  | .add r _ _ _ => by simpa [plus, LeadsWithAtom] using leadsWithAtom_plus hl r

theorem value?_plus {l : Phrase .sum} (hl : l.value? I = some a) : {b : Rat} → (r : Phrase .sum) →
    r.value? I = some b → (l.plus r).value? I = some (a + b)
  | b, .product p, hr => by
    rw [plus]
    exact value?_add.mpr ⟨a, b, hl, hr, rfl⟩
  | b, .add r o h p, hr => by
    obtain ⟨c, d, hc, hd, hb⟩ := value?_add.mp hr
    rw [plus]
    refine value?_add.mpr ⟨a + c, d, value?_plus hl r hc, hd, ?_⟩
    have hcases : o = .add ∨ o = .subtract := by simpa [Operator.additive] using h
    rcases hcases with rfl | rfl
    · obtain rfl := Option.some.inj hb
      rw [← add_assoc]
      rfl
    · obtain rfl := Option.some.inj hb
      rw [← add_sub_assoc]
      rfl

def product? (I : Interpretation) : List (Phrase .power) → Option Rat
  | [] => some 1
  | p :: rest => do return (← p.value? I) * (← product? I rest)

theorem product?_cons_eq_some {p : Phrase .power} {rest : List (Phrase .power)} :
    product? I (p :: rest) = some q ↔
      ∃ a b : Rat, p.value? I = some a ∧ product? I rest = some b ∧ q = a * b := by
  simp [product?, Option.bind_eq_some_iff, @eq_comm _ q]

/-- A product with stars between its factors. -/
def times (l : Phrase .product) : List (Phrase .power) → Phrase .product
  | [] => l
  | p :: rest => times (.multiply l .multiply (by decide) p) rest

theorem signed_times (l : Phrase .product) (ps : List (Phrase .power)) :
    (l.times ps).signed = l.signed.times ps := by
  induction ps generalizing l with
  | nil => rfl
  | cons p ps ih => exact ih _

theorem leadsWithAtom_times {l : Phrase .product} (hl : l.LeadsWithAtom)
    (ps : List (Phrase .power)) : (l.times ps).LeadsWithAtom := by
  induction ps generalizing l with
  | nil => exact hl
  | cons p ps ih => exact ih (l := .multiply l _ _ p) hl

theorem value?_times {l : Phrase .product} {ps : List (Phrase .power)} (hl : l.value? I = some a)
    (hps : product? I ps = some b) : (l.times ps).value? I = some (a * b) := by
  induction ps generalizing l a b with
  | nil =>
    obtain rfl := Option.some.inj hps
    rwa [mul_one]
  | cons p ps ih =>
    obtain ⟨c, d, hc, hd, rfl⟩ := product?_cons_eq_some.mp hps
    rw [← mul_assoc]
    exact ih (value?_multiply.mpr ⟨a, c, hl, hc, rfl⟩) hd

end Phrase

end SymbolicAlgebra
