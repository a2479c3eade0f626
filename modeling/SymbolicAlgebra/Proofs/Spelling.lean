import SymbolicAlgebra.Proofs.Legibility
import SymbolicAlgebra.Proofs.Sign

/-!
# Texts that spell a meaning

`Tier.Spells` says of a text that it reads as a phrase of a tier whose value is a given one under
every interpretation; `Tier.SpellsSigned` says so of a text that may begin with a minus. A text in
brackets spells what is in them, and texts are multiplied and added as the printer puts them
together.
-/

namespace SymbolicAlgebra

open Formula

namespace Text

theorem withoutBlanks_eq_self {w : List Char} (h : ∀ c ∈ w, isBlank c = false) :
    withoutBlanks w = w :=
  List.filter_eq_self.mpr fun c hc => by simp [h c hc]

theorem withoutBlanks_cons {c : Char} (h : isBlank c = false) (w : List Char) :
    withoutBlanks (c :: w) = c :: withoutBlanks w :=
  List.filter_cons_of_pos (by simp [h])

theorem isBlank_of_plain {c : Char} (h : isLetter c = true ∨ isDigit c = true ∨ c = '(') :
    isBlank c = false := by
  rcases h with h | h | rfl
  · exact isBlank_of_isOperandChar (by simp [isOperandChar, isAlphanumeric, h])
  · exact isBlank_of_isOperandChar (by simp [isOperandChar, isAlphanumeric, h])
  · decide

theorem BeginsPlainly.withoutBlanks {w : List Char} (h : BeginsPlainly w) :
    (Text.withoutBlanks w).head? = w.head? := by
  obtain ⟨c, v, rfl, hc⟩ := h
  rw [withoutBlanks_cons (isBlank_of_plain hc), List.head?_cons, List.head?_cons]

theorem BeginsPlainly.head?_ne {w : List Char} (h : BeginsPlainly w) :
    (Text.withoutBlanks w).head? ≠ some '-' := by
  rw [h.withoutBlanks]
  obtain ⟨c, v, rfl, hc⟩ := h
  rintro ⟨⟩
  revert hc
  decide

theorem BeginsPlainly.append {w : List Char} (h : BeginsPlainly w) (v : List Char) :
    BeginsPlainly (w ++ v) := by
  obtain ⟨c, u, rfl, hc⟩ := h
  exact ⟨c, u ++ v, rfl, hc⟩

end Text

/-- What a text may come to under each interpretation. -/
abbrev Denotation := Interpretation → Option Rat

namespace Tier

variable {t : Tier} {w v : List Char} {m n : Denotation} {start : Prop}

/-- The text reads as a phrase of the tier with the meaning. -/
def Spells (t : Tier) (w : List Char) (m : Denotation) : Prop :=
  ∃ p : Phrase t, Reads (Text.withoutBlanks w) p.lexemes ∧ Text.BeginsPlainly w ∧
    ∀ I q, m I = some q → p.value? I = some q

/-- The text spells the meaning, perhaps with a sign before it. Within a formula the sign must stand
before an atom. -/
def SpellsSigned (t : Tier) (start : Prop) (w : List Char) (m : Denotation) : Prop :=
  t.Spells w m ∨ ∃ (v : List Char) (p : Phrase t), w = '-' :: v ∧
    Reads (Text.withoutBlanks v) p.lexemes ∧ Text.BeginsPlainly v ∧ (start ∨ p.LeadsWithAtom) ∧
    ∀ I q, m I = some q → p.signed.value? I = some q

/-- The text spells the meaning within a formula, where its sign is an operator. -/
def SpellsWithin (w : List Char) (m : Denotation) : Prop :=
  ∃ p : Phrase .sum, Reads (Text.withoutBlanks w) p.lexemes ∧
    ∀ I q, m I = some q → p.value? I = some q

theorem Spells.weaken {n : Denotation} (h : t.Spells w m)
    (hmn : ∀ I q, n I = some q → m I = some q) : t.Spells w n := by
  obtain ⟨p, hp, hw, hm⟩ := h
  exact ⟨p, hp, hw, fun I q hq => hm I q (hmn I q hq)⟩

theorem SpellsSigned.weaken {n : Denotation} (h : t.SpellsSigned start w m)
    (hmn : ∀ I q, n I = some q → m I = some q) : t.SpellsSigned start w n := by
  rcases h with h | ⟨v, p, hv, hp, hplain, hstart, hm⟩
  · exact .inl (h.weaken hmn)
  · exact .inr ⟨v, p, hv, hp, hplain, hstart, fun I q hq => hm I q (hmn I q hq)⟩

theorem SpellsSigned.mono {start' : Prop} (h : t.SpellsSigned start w m)
    (hstart : start → start') : t.SpellsSigned start' w m := by
  rcases h with h | ⟨v, p, hv, hp, hplain, hs, hm⟩
  · exact .inl h
  · exact .inr ⟨v, p, hv, hp, hplain, hs.imp_left hstart, hm⟩

theorem Spells.unary (h : Tier.atom.Spells w m) : Tier.unary.Spells w m := by
  obtain ⟨p, hp, h⟩ := h
  exact ⟨.atom p, hp, h⟩

theorem Spells.power (h : Tier.unary.Spells w m) : Tier.power.Spells w m := by
  obtain ⟨p, hp, h⟩ := h
  exact ⟨.unary p, hp, h⟩

theorem Spells.product (h : Tier.power.Spells w m) : Tier.product.Spells w m := by
  obtain ⟨p, hp, h⟩ := h
  exact ⟨.power p, hp, h⟩

theorem Spells.sum (h : Tier.product.Spells w m) : Tier.sum.Spells w m := by
  obtain ⟨p, hp, h⟩ := h
  exact ⟨.product p, hp, h⟩

theorem SpellsSigned.sum (h : Tier.product.SpellsSigned start w m) :
    Tier.sum.SpellsSigned start w m := by
  rcases h with h | ⟨v, p, hv, hp, hplain, hstart, hm⟩
  · exact .inl h.sum
  · exact .inr ⟨v, .product p, hv, hp, hplain, hstart, hm⟩

/-- Within a formula a sign becomes an operator on the atom after it. -/
theorem SpellsSigned.within (h : Tier.sum.SpellsSigned False w m) : SpellsWithin w m := by
  rcases h with ⟨p, hp, -, hm⟩ | ⟨v, p, rfl, hp, hplain, hstart, hm⟩
  · exact ⟨p, hp, hm⟩
  · have hatom := hstart.resolve_left not_false
    refine ⟨p.negated, ?_, fun I q hq => p.value?_negated hatom (hm I q hq)⟩
    rw [p.lexemes_negated hatom, Text.withoutBlanks_cons (by decide)]
    exact hp.signed hplain.head?_ne

theorem SpellsWithin.bracketed (h : SpellsWithin w m) :
    Tier.atom.Spells (SymbolicAlgebra.bracketed w) m := by
  obtain ⟨p, hp, hm⟩ := h
  refine ⟨.bracketed "(" ")" p, ?_, ⟨'(', _, rfl, .inr (.inr rfl)⟩, hm⟩
  have hblanks : Text.withoutBlanks (SymbolicAlgebra.bracketed w) =
      SymbolicAlgebra.bracketed (Text.withoutBlanks w) := by
    rw [SymbolicAlgebra.bracketed, List.cons_append, Text.withoutBlanks_cons (by decide),
      Text.withoutBlanks_append]
    rfl
  rw [hblanks]
  exact hp.bracketed

end Tier

/-- A text spells a meaning, as tightly as its precedence says. -/
structure Spelled (start : Prop) (precedence : Except Fault Nat) (w : List Char)
    (m : Denotation) : Prop where
  whole : Tier.sum.SpellsSigned start w m
  power : ∀ k, precedence = .ok k → Precedence.product < k → Tier.power.Spells w m
  unary : ∀ k, precedence = .ok k → Precedence.power < k → Tier.unary.Spells w m
  atom : ∀ k, precedence = .ok k → Precedence.postfixed < k → Tier.atom.Spells w m

theorem embed_eq_ok {place : Nat} {precedence : Except Fault Nat}
    {text : Except Fault (List Char)} {w : List Char} :
    embed place precedence text = .ok w ↔
      ∃ k v, precedence = .ok k ∧ text = .ok v ∧ w = if place < k then v else bracketed v := by
  simp only [embed, Outcome.bind_eq_ok]
  constructor
  · rintro ⟨k, hk, h⟩
    split at h
    · next hlt => exact ⟨k, w, hk, h, by rw [if_pos hlt]⟩
    · next hlt =>
      obtain ⟨v, hv, h⟩ := Outcome.bind_eq_ok.mp h
      cases h
      exact ⟨k, v, hk, hv, by rw [if_neg hlt]⟩
  · rintro ⟨k, v, hk, hv, rfl⟩
    refine ⟨k, hk, ?_⟩
    split
    · exact hv
    · rw [hv]
      rfl

namespace Spelled

variable {start : Prop} {precedence : Except Fault Nat} {w : List Char} {m : Denotation} {k : Nat}

theorem of_atom (h : Tier.atom.Spells w m) : Spelled start precedence w m where
  whole := .inl h.unary.power.product.sum
  power _ _ _ := h.unary.power
  unary _ _ _ := h.unary
  atom _ _ _ := h

/-- A text that binds no tighter than a product. -/
theorem of_loose (h : Tier.sum.SpellsSigned start w m)
    (hk : ∀ k, precedence = .ok k → k ≤ Precedence.product) : Spelled start precedence w m where
  whole := h
  power k hp hlt := absurd (hk k hp) (not_le.mpr hlt)
  unary k hp hlt := absurd ((hk k hp).trans (by decide)) (not_le.mpr hlt)
  atom k hp hlt := absurd ((hk k hp).trans (by decide)) (not_le.mpr hlt)

variable (h : Spelled False precedence w m) (hk : precedence = .ok k)
include h hk

theorem embed_product :
    Tier.power.Spells (if Precedence.product < k then w else bracketed w) m := by
  split
  · next hlt => exact h.power k hk hlt
  · exact h.whole.within.bracketed.unary.power

theorem embed_power :
    Tier.unary.Spells (if Precedence.power < k then w else bracketed w) m := by
  split
  · next hlt => exact h.unary k hk hlt
  · exact h.whole.within.bracketed.unary

theorem embed_postfixed :
    Tier.atom.Spells (if Precedence.postfixed < k then w else bracketed w) m := by
  split
  · next hlt => exact h.atom k hk hlt
  · exact h.whole.within.bracketed

theorem embed_atom (hloose : k ≤ Precedence.product ∨ Precedence.postfixed < k) :
    Tier.atom.Spells (if Precedence.product < k then w else bracketed w) m := by
  split
  · next hlt => exact h.atom k hk (hloose.resolve_left (not_le.mpr hlt))
  · exact h.whole.within.bracketed

end Spelled

end SymbolicAlgebra
