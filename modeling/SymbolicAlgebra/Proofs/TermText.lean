import SymbolicAlgebra.Proofs.Building
import SymbolicAlgebra.Proofs.Juxtaposition

/-!
# Texts of terms

The text of a term spells what the term means, given that the texts of its factors spell what they
mean. A term in a sum after its first one is written without its sign and spells its magnitude, up to
the sign of the term.
-/

namespace SymbolicAlgebra

open Outcome Formula

variable {I : Interpretation}

namespace Factor

variable {f : Factor} {fs vs : List Factor} {pieces : List (List Char)}

theorem visible_cons_eq_ok :
    visible (f :: fs) = .ok vs ↔
      ∃ b us, f.isOne = .ok b ∧ visible fs = .ok us ∧ vs = if b then us else f :: us := by
  rw [visible, filterM_cons_eq_ok]
  constructor
  · rintro ⟨b, us, hb, hus, rfl⟩
    obtain ⟨a, ha, hb⟩ := bind_eq_ok.mp hb
    cases hb
    exact ⟨a, us, ha, hus, by cases a <;> rfl⟩
  · rintro ⟨b, us, hb, hus, rfl⟩
    exact ⟨!b, us, by rw [hb]; rfl, hus, by cases b <;> rfl⟩

theorem visibleChars_cons_eq_ok {place : Nat} :
    visibleChars place (f :: fs) = .ok pieces ↔
      ∃ b rest, f.isOne = .ok b ∧ visibleChars place fs = .ok rest ∧
        (b = true ∧ pieces = rest ∨
          b = false ∧ ∃ w, embed place f.precedence f.toChars = .ok w ∧ pieces = w :: rest) := by
  simp only [visibleChars, bind_eq_ok]
  constructor
  · rintro ⟨b, hb, h⟩
    cases b with
    | true => exact ⟨true, pieces, hb, h, .inl ⟨rfl, rfl⟩⟩
    | false =>
      obtain ⟨w, hw, h⟩ := bind_eq_ok.mp h
      obtain ⟨rest, hrest, h⟩ := bind_eq_ok.mp h
      cases h
      exact ⟨false, rest, hb, hrest, .inr ⟨rfl, w, hw, rfl⟩⟩
  · rintro ⟨b, rest, hb, hrest, ⟨rfl, rfl⟩ | ⟨rfl, w, hw, rfl⟩⟩
    · exact ⟨true, hb, hrest⟩
    · exact ⟨false, hb, by simp [hw, hrest]⟩

theorem length_visibleChars {place : Nat} (h : visibleChars place fs = .ok pieces)
    (hvs : visible fs = .ok vs) : pieces.length = vs.length := by
  induction fs generalizing pieces vs with
  | nil =>
    cases h
    cases hvs
    rfl
  | cons f fs ih =>
    obtain ⟨b, rest, hb, hrest, hcases⟩ := visibleChars_cons_eq_ok.mp h
    obtain ⟨b', us, hb', hus, rfl⟩ := visible_cons_eq_ok.mp hvs
    obtain rfl := Except.ok.inj (hb.symm.trans hb')
    have hlength := ih hrest hus
    rcases hcases with ⟨rfl, rfl⟩ | ⟨rfl, w, hw, rfl⟩
    · simpa using hlength
    · simpa using hlength

theorem isEmpty_visibleChars {place : Nat} (h : visibleChars place fs = .ok pieces)
    (hvs : visible fs = .ok vs) : vs.isEmpty = pieces.isEmpty := by
  have hlength := length_visibleChars h hvs
  rw [Bool.eq_iff_iff, List.isEmpty_iff, List.isEmpty_iff, ← List.length_eq_zero_iff,
    ← List.length_eq_zero_iff, hlength]

theorem product?_of_visible_nil {q : Rat} (h : visible fs = .ok []) (hq : product? I fs = some q) :
    q = 1 := by
  induction fs generalizing q with
  | nil => exact (Option.some.inj hq).symm
  | cons f fs ih =>
    obtain ⟨b, us, hb, hus, hnil⟩ := visible_cons_eq_ok.mp h
    obtain ⟨a, c, ha, hc, rfl⟩ := product?_cons_eq_some.mp hq
    cases b with
    | false => simp at hnil
    | true =>
      obtain rfl : us = [] := by simpa using hnil.symm
      rw [Factor.isOne_sound f hb ha, ih hus hc, one_mul]

end Factor

namespace Value

/-- A coefficient of one is written where nothing else is, but not over a denominator of one. -/
theorem leadingChars_eq_ok {c : Rat} {shown alone isSigned : Bool} {w : List Char}
    (h : (exact c).leadingChars (shown && alone) alone isSigned = .ok w) :
    w = if c = 1 ∧ shown = false ∧ alone = true then [] else coefficientText c alone isSigned := by
  unfold leadingChars at h
  by_cases hone : c = 1
  · subst hone
    by_cases hwritten : (shown && alone) = true
    · rw [if_pos (by simp [hwritten])] at h
      obtain ⟨rfl, rfl⟩ : shown = true ∧ alone = true := by simpa using hwritten
      rw [coefficientChars_eq_ok h, if_neg (by simp)]
    · rw [if_neg (by simp [hwritten])] at h
      rw [← Except.ok.inj h]
      cases alone with
      | true =>
        have hshown : shown = false := by simpa using hwritten
        rw [if_pos ⟨rfl, hshown, rfl⟩]
      | false => simp [coefficientText, signed]
  · rw [if_pos (by simp [hone])] at h
    rw [coefficientChars_eq_ok h, if_neg fun hand => hone hand.1]

def wholeChars (c : Rat) (isSigned : Bool) (pieces : List (List Char)) : List Char :=
  let text := juxtapose
    (if c = 1 ∧ pieces.isEmpty = true then [] else coefficientText c pieces.isEmpty isSigned) pieces
  if text.isEmpty then ['1'] else text

theorem wholeChars_eq {c : Rat} {isSigned : Bool} {pieces : List (List Char)}
    (h : sideChars c isSigned pieces ≠ []) :
    wholeChars c isSigned pieces = sideChars c isSigned pieces := by
  by_cases hone : c = 1 ∧ pieces = []
  · obtain ⟨rfl, rfl⟩ := hone
    simp only [wholeChars, sideChars, coefficientText, juxtapose_nil, abs_one]
    cases isSigned <;> rfl
  · have htext : ¬ (c = 1 ∧ pieces.isEmpty = true) := by simpa using hone
    rw [wholeChars, if_neg htext]
    exact if_neg (by simpa [sideChars] using h)

end Value

/-- The parts of which the text of a term consists. -/
theorem Term.toChars_eq_ok {c k : Rat} {top bottom : List Factor} {signed : Bool} {w : List Char}
    (h : Term.toChars signed ⟨.exact c, .exact k, top, bottom⟩ = .ok w) (hc : c ≠ 0) :
    ∃ vs whole pieces, Factor.visible top = .ok vs ∧
      Term.denominatorIsOne ⟨.exact c, .exact k, top, bottom⟩ = .ok whole ∧
      Factor.visibleChars (if c = 1 ∧ whole = true ∧ vs.length = 1 then Precedence.anything
        else Precedence.product) top = .ok pieces ∧
      (whole = true ∧ w = Value.wholeChars c signed pieces ∨
        whole = false ∧ ∃ us pieces', Factor.visible bottom = .ok us ∧
          Factor.visibleChars Precedence.product bottom = .ok pieces' ∧
          w = Value.sideChars c signed pieces ++
            '/' :: Value.denominatorChars k signed pieces') := by
  rw [Term.toChars, if_neg (by simpa using hc)] at h
  obtain ⟨vs, hvs, h⟩ := bind_eq_ok.mp h
  obtain ⟨us, hus, h⟩ := bind_eq_ok.mp h
  obtain ⟨whole, hwhole, h⟩ := bind_eq_ok.mp h
  obtain ⟨coefficient, hcoefficient, h⟩ := bind_eq_ok.mp h
  obtain ⟨pieces, hpieces, h⟩ := bind_eq_ok.mp h
  obtain rfl := Value.leadingChars_eq_ok hcoefficient
  rw [Factor.isEmpty_visibleChars hpieces hvs] at h
  refine ⟨vs, whole, pieces, hvs, hwhole, ?_, ?_⟩
  · rw [← hpieces]
    congr 1
    cases whole <;> simp
  · cases whole with
    | true =>
      refine .inl ⟨rfl, ?_⟩
      rw [← Except.ok.inj h, Value.wholeChars]
      simp
    | false =>
      obtain ⟨divisor, hdivisor, h⟩ := bind_eq_ok.mp h
      obtain ⟨pieces', hpieces', h⟩ := bind_eq_ok.mp h
      rw [Factor.isEmpty_visibleChars hpieces' hus, ← Bool.true_and pieces'.isEmpty] at hdivisor
      have hdivisor := Value.leadingChars_eq_ok hdivisor
      rw [if_neg (by simp)] at hdivisor
      refine .inr ⟨rfl, us, pieces', hus, hpieces', ?_⟩
      rw [← Except.ok.inj h, hdivisor, if_neg (by simp), Value.sideChars, Value.denominatorChars,
        Value.sideChars]

namespace Tier

variable {start : Prop} {w v : List Char} {m n : Denotation} {r : Phrase .power}

/-- What a quotient of texts comes to. -/
def quotient (m n : Denotation) : Denotation := fun I => do quotient? (← m I) (← n I)

theorem reads_quotient {p : Phrase .product} (hp : Reads (Text.withoutBlanks w) p.lexemes)
    (hr : Reads (Text.withoutBlanks v) r.lexemes) :
    Reads (Text.withoutBlanks (w ++ '/' :: v))
      (Phrase.multiply p .divide (by decide) r).lexemes := by
  rw [Text.withoutBlanks_append, Text.withoutBlanks_cons (by decide)]
  exact hp.joined hr (by decide) (Lexeme.ofUnit_symbol .divide) (by simp)

theorem quotient_eq_some {q : Rat} : quotient m n I = some q ↔
    ∃ a b, m I = some a ∧ n I = some b ∧ quotient? a b = some q := by
  simp [quotient, Option.bind_eq_some_iff]

variable (hr : Reads (Text.withoutBlanks v) r.lexemes)
  (hn : ∀ I q, n I = some q → r.value? I = some q)
include hr hn

theorem Spells.quotient (h : Tier.product.Spells w m) :
    Tier.product.Spells (w ++ '/' :: v) (quotient m n) := by
  obtain ⟨p, hp, hplain, hm⟩ := h
  refine ⟨_, reads_quotient hp hr, hplain.append _, fun I q hq => ?_⟩
  obtain ⟨a, b, ha, hb, hq⟩ := quotient_eq_some.mp hq
  exact Phrase.value?_multiply.mpr ⟨a, b, hm I a ha, hn I b hb, hq⟩

theorem SpellsSigned.quotient (h : Tier.product.SpellsSigned start w m) :
    Tier.product.SpellsSigned start (w ++ '/' :: v) (Tier.quotient m n) := by
  rcases h with h | ⟨u, p, rfl, hp, hplain, hstart, hm⟩
  · exact .inl (h.quotient hr hn)
  · refine .inr ⟨u ++ '/' :: v, _, rfl, reads_quotient hp hr, hplain.append _, ?_, fun I q hq => ?_⟩
    · simpa [Phrase.LeadsWithAtom] using hstart
    · obtain ⟨a, b, ha, hb, hq⟩ := quotient_eq_some.mp hq
      rw [Phrase.signed]
      exact Phrase.value?_multiply.mpr ⟨a, b, hm I a ha, hn I b hb, hq⟩

end Tier

theorem Tier.Spells.ne_nil {t : Tier} {w : List Char} {m : Denotation} (h : t.Spells w m) :
    w ≠ [] := by
  obtain ⟨p, -, ⟨c, v, rfl, -⟩, -⟩ := h
  simp

theorem Tier.SpellsSigned.ne_nil {t : Tier} {start : Prop} {w : List Char} {m : Denotation}
    (h : t.SpellsSigned start w m) : w ≠ [] := by
  rcases h with h | ⟨v, p, rfl, -⟩
  · exact h.ne_nil
  · simp

namespace Term

variable {c k q : Rat} {top bottom : List Factor}

theorem isNegative_exact :
    (⟨.exact c, .exact k, top, bottom⟩ : Term).isNegative = (decide (c < 0) != decide (k < 0)) :=
  rfl

/-- What a term means but for its sign. -/
def magnitude? (t : Term) : Denotation := fun I =>
  (t.meaning? I).map fun q => if t.isNegative then -q else q

theorem abs_quotient (c k n b : Rat) :
    |c| * n / (|k| * b) =
      if (decide (c < 0) != decide (k < 0)) = true then -(c * n / (k * b))
      else c * n / (k * b) := by
  rcases lt_or_ge c 0 with hc | hc <;> rcases lt_or_ge k 0 with hk | hk
  · simp [hc, hk, abs_of_neg, neg_div_neg_eq]
  · simp [hc, not_lt.mpr hk, abs_of_neg, abs_of_nonneg hk, neg_div]
  · simp [not_lt.mpr hc, hk, abs_of_neg, abs_of_nonneg hc, div_neg]
  · simp [not_lt.mpr hc, not_lt.mpr hk, abs_of_nonneg hc, abs_of_nonneg hk]

/-- A term over one is the product of its multiplier and its factors. -/
theorem meaning?_of_denominatorIsOne
    (hwhole : denominatorIsOne ⟨.exact c, .exact k, top, bottom⟩ = .ok true)
    (hq : meaning? I ⟨.exact c, .exact k, top, bottom⟩ = some q) :
    k = 1 ∧ (Factor.product? I top).map (c * ·) = some q := by
  obtain ⟨m, d, n, b, hm, hd, hn, hb, -, -, rfl⟩ := meaning?_eq_some.mp hq
  obtain rfl := Value.exact.inj hm
  obtain rfl := Value.exact.inj hd
  obtain ⟨rfl, rfl⟩ := denominatorIsOne_sound hwhole rfl hb
  refine ⟨rfl, ?_⟩
  rw [show Factor.product? I top = some n from hn]
  simp

theorem magnitude?_eq_some {t : Term} :
    t.magnitude? I = some q ↔
      ∃ r, t.meaning? I = some r ∧ (if t.isNegative then -r else r) = q := by
  simp [magnitude?]

variable {pieces pieces' : List (List Char)} {start : Prop}

section Whole

variable (hc : Value.IsWritten c) (htop : SpellsFactors pieces top)
  (hwhole : denominatorIsOne ⟨.exact c, .exact k, top, bottom⟩ = .ok true)
include hc htop hwhole

theorem spells_whole (hsign : c = -1 → start ∨ Factor.LeadsWithAtom top) :
    Tier.product.SpellsSigned start (Value.wholeChars c true pieces)
      fun I => meaning? I ⟨.exact c, .exact k, top, bottom⟩ := by
  have hside := Value.spells_side hc htop hsign
  rw [Value.wholeChars_eq hside.ne_nil]
  exact hside.weaken fun I q hq => (meaning?_of_denominatorIsOne hwhole hq).2

theorem spells_whole_unsigned :
    Tier.product.Spells (Value.wholeChars c false pieces)
      (magnitude? ⟨.exact c, .exact k, top, bottom⟩) := by
  have hside := Value.spells_side_unsigned hc htop
  rw [Value.wholeChars_eq hside.ne_nil]
  refine hside.weaken fun I q hq => ?_
  obtain ⟨r, hr, rfl⟩ := magnitude?_eq_some.mp hq
  obtain ⟨rfl, hproduct⟩ := meaning?_of_denominatorIsOne hwhole hr
  obtain ⟨n, hn, rfl⟩ := Option.map_eq_some_iff.mp hproduct
  have habs := abs_quotient c 1 n 1
  simp only [abs_one, mul_one, div_one] at habs
  rw [hn, Option.map_some, habs, isNegative_exact]

end Whole

section Fraction

variable (hc : Value.IsWritten c) (hk : Value.IsWritten k) (htop : SpellsFactors pieces top)
  (hbottom : SpellsFactors pieces' bottom) (hratio : pieces' = [] → ¬ Value.IsRatio k)
include hc hk htop hbottom hratio

theorem spells_fraction (hsign : c = -1 → start ∨ Factor.LeadsWithAtom top)
    (hsign' : k = -1 → Factor.LeadsWithAtom bottom) :
    Tier.product.SpellsSigned start
      (Value.sideChars c true pieces ++
        '/' :: Value.denominatorChars k true pieces')
      fun I => meaning? I ⟨.exact c, .exact k, top, bottom⟩ := by
  obtain ⟨r, hr, hvalue⟩ := Value.exists_denominator hk hbottom hsign' hratio
  have hside := Value.spells_side hc htop hsign
  have hover := hside.quotient (n := fun I => (Factor.product? I bottom).map (k * ·)) hr fun I q hq => by
    obtain ⟨b, hb, rfl⟩ := Option.map_eq_some_iff.mp hq
    exact hvalue I b hb
  refine hover.weaken fun I q hq => ?_
  obtain ⟨m, d, n, b, hm, hd, hn, hb, hd0, hb0, rfl⟩ := meaning?_eq_some.mp hq
  obtain rfl := Value.exact.inj hm
  obtain rfl := Value.exact.inj hd
  refine Tier.quotient_eq_some.mpr ⟨c * n, k * b, ?_, ?_, ?_⟩
  · exact Option.map_eq_some_iff.mpr ⟨n, hn, rfl⟩
  · exact Option.map_eq_some_iff.mpr ⟨b, hb, rfl⟩
  · exact quotient?_eq_some.mpr ⟨mul_ne_zero hd0 hb0, rfl⟩

theorem spells_fraction_unsigned :
    Tier.product.Spells
      (Value.sideChars c false pieces ++
        '/' :: Value.denominatorChars k false pieces')
      (magnitude? ⟨.exact c, .exact k, top, bottom⟩) := by
  have hsign : |k| = -1 → Factor.LeadsWithAtom bottom := fun h => by
    have := abs_nonneg k
    linarith
  have hratio' : pieces' = [] → ¬ Value.IsRatio |k| := fun hnil => by
    rw [Value.IsRatio, Value.decimalPlaces?_abs]
    exact hratio hnil
  obtain ⟨r, hr, hvalue⟩ :=
    Value.exists_denominator (Value.isWritten_abs.mpr hk) hbottom hsign hratio'
  have hside := Value.spells_side_unsigned hc htop
  rw [Value.denominatorChars_unsigned]
  have hover := hside.quotient (n := fun I => (Factor.product? I bottom).map (|k| * ·)) hr
    fun I q hq => by
      obtain ⟨b, hb, rfl⟩ := Option.map_eq_some_iff.mp hq
      exact hvalue I b hb
  refine hover.weaken fun I q hq => ?_
  obtain ⟨a, ha, rfl⟩ := magnitude?_eq_some.mp hq
  obtain ⟨m, d, n, b, hm, hd, hn, hb, hd0, hb0, rfl⟩ := meaning?_eq_some.mp ha
  obtain rfl := Value.exact.inj hm
  obtain rfl := Value.exact.inj hd
  refine Tier.quotient_eq_some.mpr ⟨|c| * n, |k| * b, ?_, ?_, ?_⟩
  · exact Option.map_eq_some_iff.mpr ⟨n, hn, rfl⟩
  · exact Option.map_eq_some_iff.mpr ⟨b, hb, rfl⟩
  · refine quotient?_eq_some.mpr ⟨mul_ne_zero (abs_ne_zero.mpr hd0) hb0, ?_⟩
    rw [abs_quotient, isNegative_exact]

end Fraction

end Term

end SymbolicAlgebra
