import Mathlib.Tactic.Linarith
import SymbolicAlgebra.Proofs.Spelling

/-!
# Coefficients and factors

An exact number is written as an operand or as a ratio of two, with its sign. A coefficient is
written before the texts of the factors that it multiplies, and together they spell the product.
-/

namespace SymbolicAlgebra

open Formula

namespace Text

theorem isLetter_of_isDigit {c : Char} (h : c.isDigit = true) : isLetter c = false :=
  inRanges_of_lt _ (by have := toNat_of_isDigit h; omega)

theorem isDigit_of_ascii {c : Char} (h : c.isDigit = true) : isDigit c = true :=
  isDigit_of_isDecimalDigit (isDecimalDigit_of_isDigit h)

theorem isAlphanumeric_of_ascii {c : Char} (h : c.isDigit = true) : isAlphanumeric c = true := by
  simp [isAlphanumeric, isDigit_of_ascii h]

theorem isOperandChar_of_ascii {c : Char} (h : c.isDigit = true) : isOperandChar c = true := by
  simp [isOperandChar, isAlphanumeric_of_ascii h]

end Text

namespace Numeral

variable {w : List Char} {q : Rat}

theorem isChain_continues {c : Char} {v : List Char}
    (h : ∀ d ∈ v, isMark d = false ∧ Text.isLetter d = false) : (c :: v).IsChain Continues := by
  induction v generalizing c with
  | nil => simp
  | cons d v ih =>
    obtain ⟨hd, hv⟩ := List.forall_mem_cons.mp h
    exact List.isChain_cons_cons.mpr ⟨⟨hd.1, fun hletter => by simp [hd.2] at hletter⟩, ih hv⟩

theorem Spells.isBlank (h : Spells w q) {c : Char} (hc : c ∈ w) : Text.isBlank c = false := by
  rcases h.isDigit_or hc with hc | rfl
  · exact Text.isBlank_of_isDigit hc
  · decide

def operand (w : List Char) (q : Rat) : Phrase .atom :=
  .operand (String.ofList w) (.number (.exact q))

theorem Spells.reads (h : Spells w q) : Reads w (operand w q).lexemes := by
  have hvalue := h.numberValue?
  have hdigits := @h.isDigit_or
  obtain ⟨c, v, rfl, hc⟩ := h.exists_cons
  have hoperand := Text.isOperandChar_of_ascii hc
  refine .operand hoperand (isChain_continues fun d hd => ?_) (Lexeme.ofUnit_number hoperand hvalue)
  rcases hdigits (List.mem_cons_of_mem c hd) with hd | rfl
  · exact ⟨not_isMark_of_isOperandChar (Text.isOperandChar_of_ascii hd),
      Text.isLetter_of_isDigit hd⟩
  · decide

end Numeral

/-- A phrase for an exact number without its sign. -/
structure Phrase.IsNumeral (p : Phrase .product) (w : List Char) (q : Rat) : Prop where
  reads : Reads w p.lexemes
  leads : p.LeadsWithAtom
  value : ∀ I, p.value? I = some q
  signedValue : ∀ I, p.signed.value? I = some (-q)
  begins : ∃ c v, w = c :: v ∧ c.isDigit = true
  ends : ∃ c, w.getLast? = some c ∧ c.isDigit = true
  isBlank : ∀ c ∈ w, Text.isBlank c = false

namespace Value

variable {q : Rat}

theorem isNumeral_of_spells {w : List Char} (h : Numeral.Spells w q) :
    (Phrase.power (.unary (.atom (Numeral.operand w q)))).IsNumeral w q where
  reads := h.reads
  leads := trivial
  value _ := rfl
  signedValue I := by
    rw [← neg_one_mul]
    rfl
  begins := h.exists_cons
  ends := h.isDigit_getLast
  isBlank _ := h.isBlank

theorem isNumeral_of_isRatio (h : IsRatio q) : ∃ p : Phrase .product, p.IsNumeral (magnitudeChars q) |q| := by
  have htop := Numeral.spells_digitChars q.num.natAbs
  have hbottom := Numeral.spells_digitChars q.den
  have hden : (q.den : Rat) ≠ 0 := by exact_mod_cast q.den_nz
  have hquotient : (q.num.natAbs : Rat) / q.den = |q| := abs_eq_natAbs_div_den q |>.symm
  rw [magnitudeChars_of_isRatio h]
  obtain ⟨c, v, hc, hdigit⟩ := htop.exists_cons
  obtain ⟨d, hd, hlast⟩ := hbottom.isDigit_getLast
  have hne : Decimal.digitChars q.den ≠ [] := Nat.toDigits_ne_nil
  let top := Numeral.operand (Decimal.digitChars q.num.natAbs) q.num.natAbs
  let bottom := Numeral.operand (Decimal.digitChars q.den) q.den
  refine ⟨.multiply (.power (.unary (.atom top))) .divide (by decide) (.unary (.atom bottom)),
    ?_, ?_, fun I => ?_, fun I => ?_, ?_, ?_, ?_⟩
  · exact htop.reads.joined hbottom.reads (by decide) (Lexeme.ofUnit_symbol .divide) (by simp)
  · simp [Phrase.LeadsWithAtom]
  · refine Phrase.value?_multiply.mpr ⟨_, _, rfl, rfl, quotient?_eq_some.mpr ⟨hden, hquotient.symm⟩⟩
  · refine Phrase.value?_multiply.mpr ⟨_, _, rfl, rfl, quotient?_eq_some.mpr ⟨hden, ?_⟩⟩
    rw [neg_one_mul, neg_div, hquotient]
  · exact ⟨c, _, by rw [hc, List.cons_append], hdigit⟩
  · exact ⟨d, by rw [List.getLast?_append_of_ne_nil _ (by simp),
      List.getLast?_cons_of_ne_nil hne, hd], hlast⟩
  · intro a ha
    rcases List.mem_append.mp ha with ha | ha
    · exact htop.isBlank ha
    · rcases List.mem_cons.mp ha with rfl | ha
      · decide
      · exact hbottom.isBlank ha

/-- The text of an exact number all of whose digits are written, without its sign. -/
theorem exists_isNumeral (h : IsWritten q) : ∃ p : Phrase .product, p.IsNumeral (magnitudeChars q) |q| := by
  by_cases hratio : IsRatio q
  · exact isNumeral_of_isRatio hratio
  · exact ⟨_, isNumeral_of_spells (spells_magnitudeChars h hratio)⟩

end Value

theorem Text.beginsPlainly_of_digit {w : List Char} (h : ∃ c v, w = c :: v ∧ c.isDigit = true) :
    Text.BeginsPlainly w := by
  obtain ⟨c, v, hw, hc⟩ := h
  exact ⟨c, v, hw, .inr (.inl (Text.isDigit_of_ascii hc))⟩

namespace Phrase.IsNumeral

variable {p : Phrase .product} {w : List Char} {q : Rat}

theorem withoutBlanks (h : p.IsNumeral w q) : Text.withoutBlanks w = w :=
  Text.withoutBlanks_eq_self h.isBlank

theorem spells (h : p.IsNumeral w q) : Tier.product.Spells w fun _ => some q := by
  refine ⟨p, ?_, Text.beginsPlainly_of_digit h.begins, fun I r hr => ?_⟩
  · rw [h.withoutBlanks]
    exact h.reads
  · exact (h.value I).trans hr

theorem spells_negative (h : p.IsNumeral w q) (start : Prop) :
    Tier.product.SpellsSigned start ('-' :: w) fun _ => some (-q) := by
  refine .inr ⟨w, p, rfl, ?_, Text.beginsPlainly_of_digit h.begins, .inr h.leads, fun I r hr => ?_⟩
  · rw [h.withoutBlanks]
    exact h.reads
  · exact (h.signedValue I).trans hr

end Phrase.IsNumeral

/-- The text of a number that is legible spells it. -/
theorem Value.spelled {q : Rat} (h : IsWritten q) (start : Prop) :
    Spelled start (.ok (exact q).precedence) (signed (decide (q < 0)) (magnitudeChars q))
      fun _ => some q := by
  obtain ⟨p, hp⟩ := exists_isNumeral h
  by_cases hneg : q < 0
  · have hspells := hp.spells_negative start
    rw [abs_of_neg hneg, neg_neg] at hspells
    rw [decide_eq_true hneg]
    refine .of_loose (by simpa [signed] using hspells.sum) fun k hk => ?_
    cases hk
    simp [precedence, isUndefined, hneg, Precedence.negative, Precedence.product]
  · have habs : |q| = q := abs_of_nonneg (not_lt.mp hneg)
    rw [decide_eq_false hneg]
    by_cases hratio : IsRatio q
    · have hspells := hp.spells.sum
      rw [habs] at hspells
      refine .of_loose (.inl (by simpa [signed] using hspells)) fun k hk => ?_
      cases hk
      simp [precedence, isUndefined, hneg, isExact, show (exact q).decimalPlaces? = none from hratio]
    · have hspells := spells_magnitudeChars h hratio
      rw [habs] at hspells
      refine .of_atom ⟨Numeral.operand (magnitudeChars q) q, ?_,
        Text.beginsPlainly_of_digit hspells.exists_cons, fun I r hr => hr⟩
      rw [signed, if_neg (by simp), Text.withoutBlanks_eq_self fun c => hspells.isBlank]
      exact hspells.reads

/-- The texts of the factors that are written spell them, the first one as an atom if the factors
begin with one. -/
def SpellsFactors (pieces : List (List Char)) (factors : List Factor) : Prop :=
  ∃ ps : List (Phrase .power),
    List.Forall₂ (fun w p => Reads (Text.withoutBlanks w) p.lexemes ∧ Text.BeginsPlainly w)
      pieces ps ∧
    (Factor.LeadsWithAtom factors → ∀ p, ps.head? = some p → p.LeadsWithAtom) ∧
    ∀ I q, Factor.product? I factors = some q → Phrase.product? I ps = some q

theorem reads_times {w : List Char} {l : Phrase .product} {pieces : List (List Char)}
    {ps : List (Phrase .power)} (hl : Reads (Text.withoutBlanks w) l.lexemes)
    (h : List.Forall₂ (fun w p => Reads (Text.withoutBlanks w) p.lexemes ∧ Text.BeginsPlainly w)
      pieces ps) :
    Reads (Text.withoutBlanks (w ++ pieces.flatMap ('*' :: ·))) (l.times ps).lexemes := by
  induction h generalizing w l with
  | nil => simpa [Phrase.times] using hl
  | @cons piece p pieces ps hpiece _ ih =>
    have hstar := hl.joined hpiece.1 (c := '*') (by decide) (Lexeme.ofUnit_symbol .multiply)
      (by simp)
    have hnext : Reads (Text.withoutBlanks (w ++ '*' :: piece))
        (Phrase.multiply l .multiply (by decide) p).lexemes := by
      rw [Text.withoutBlanks_append, Text.withoutBlanks_cons (by decide)]
      exact hstar
    simpa [Phrase.times] using ih hnext

theorem intercalate_cons {α : Type} (x : α) (l : List α) (ls : List (List α)) :
    [x].intercalate (l :: ls) = l ++ ls.flatMap (x :: ·) := by
  induction ls generalizing l with
  | nil => simp [List.intercalate]
  | cons l' ls ih =>
    have hstep : [x].intercalate (l :: l' :: ls) = l ++ x :: [x].intercalate (l' :: ls) := by
      simp [List.intercalate]
    rw [hstep, ih]
    simp

theorem juxtapose_nil (k : List Char) : juxtapose k [] = k := by cases k <;> rfl

theorem nil_juxtapose (pieces : List (List Char)) : juxtapose [] pieces = ['*'].intercalate pieces :=
  rfl

theorem juxtapose_cons {k : List Char} (hk : k ≠ []) (c : Char) (v : List Char)
    (pieces : List (List Char)) :
    juxtapose k ((c :: v) :: pieces) =
      if k = ['-'] || !(Text.isDigit c || c == '.') then
        k ++ (c :: v ++ pieces.flatMap ('*' :: ·))
      else k ++ '*' :: (c :: v ++ pieces.flatMap ('*' :: ·)) := by
  obtain ⟨d, u, rfl⟩ := List.exists_cons_of_ne_nil hk
  unfold juxtapose
  rw [intercalate_cons]
  rfl

theorem juxtapose_minus {k : List Char} (hk : k ≠ ['-']) {pieces : List (List Char)}
    (hpieces : ∀ w, pieces.head? = some w → w ≠ []) :
    juxtapose ('-' :: k) pieces = '-' :: juxtapose k pieces := by
  rcases pieces with - | ⟨w, pieces⟩
  · rw [juxtapose_nil, juxtapose_nil]
  · obtain ⟨c, v, rfl⟩ := List.exists_cons_of_ne_nil (hpieces w rfl)
    rw [juxtapose_cons (by simp)]
    by_cases hempty : k = []
    · rw [hempty, nil_juxtapose, intercalate_cons]
      simp
    · rw [juxtapose_cons hempty]
      cases hstar : (Text.isDigit c || c == '.') <;> simp [hk, hempty]

/-- Between a number and a factor stands a star or nothing, and either way it is a product. -/
theorem Phrase.IsNumeral.juxtapose {n : Phrase .product} {k w : List Char} {b : Rat}
    {p : Phrase .power} (hn : n.IsNumeral k b) (hp : Reads (Text.withoutBlanks w) p.lexemes)
    (hw : Text.BeginsPlainly w) (pieces : List (List Char)) :
    ∃ (v : List Char) (o : Operator) (ho : o ∈ Operator.multiplicative),
      (o = .multiply ∨ o = .juxtapose) ∧
      SymbolicAlgebra.juxtapose k (w :: pieces) = v ++ pieces.flatMap ('*' :: ·) ∧
      Reads (Text.withoutBlanks v) (Phrase.multiply n o ho p).lexemes ∧
      ∃ u, v = k ++ u := by
  obtain ⟨d, u, hk, hd⟩ := hn.begins
  obtain ⟨l, hl, hdigit⟩ := hn.ends
  have hhead := hw.withoutBlanks
  obtain ⟨c, v, rfl, hc⟩ := hw
  have hsign : k ≠ ['-'] := by
    rintro rfl
    obtain ⟨rfl, -⟩ := List.cons.inj hk
    cases hd
  have hjuxtapose : SymbolicAlgebra.juxtapose k ((c :: v) :: pieces) =
      if Text.isDigit c || c == '.' then k ++ '*' :: c :: (v ++ pieces.flatMap ('*' :: ·))
      else k ++ c :: (v ++ pieces.flatMap ('*' :: ·)) := by
    rw [juxtapose_cons (by simp [hk])]
    cases hstar : (Text.isDigit c || c == '.') <;> simp [hsign]
  rw [hjuxtapose]
  split
  · refine ⟨k ++ '*' :: c :: v, .multiply, by decide, .inl rfl, by simp, ?_, _, rfl⟩
    rw [Text.withoutBlanks_append, hn.withoutBlanks, Text.withoutBlanks_cons (by decide)]
    exact hn.reads.joined hp (by decide) (Lexeme.ofUnit_symbol .multiply) (by simp)
  · next hstar =>
    refine ⟨k ++ c :: v, .juxtapose, by decide, .inr rfl, by simp, ?_, _, rfl⟩
    rw [Text.withoutBlanks_append, hn.withoutBlanks]
    refine hn.reads.juxtaposed hp hl hhead ?_
    rcases hc with hc | hc | hc
    · exact .inl ⟨hc, Text.isDigit_of_ascii hdigit⟩
    · simp [hc] at hstar
    · exact .inr ⟨hc, Text.isAlphanumeric_of_ascii hdigit⟩

namespace Value

/-- What is written of an exact coefficient, however many digits it takes: nothing but its sign if it
is a one and does not stand alone. -/
def coefficientText (c : Rat) (alone isSigned : Bool) : List Char :=
  signed (isSigned && decide (c < 0)) (if |c| = 1 ∧ alone = false then [] else magnitudeChars c)

theorem coefficientChars_eq_ok {c : Rat} {alone isSigned : Bool} {w : List Char}
    (h : (exact c).coefficientChars alone isSigned = .ok w) : w = coefficientText c alone isSigned := by
  simp only [coefficientChars, abs_exact, isOne_exact, isNegative_exact] at h
  rw [coefficientText]
  by_cases hone : |c| = 1 ∧ alone = false
  · rw [if_pos (by simpa using hone)] at h
    rw [if_pos hone, ← Except.ok.inj h]
    rfl
  · rw [if_neg (by simpa using hone)] at h
    rw [if_neg hone]
    cases isSigned with
    | true => exact exactChars_eq_ok h
    | false =>
      have htext := exactChars_eq_ok h
      have hnonneg : ¬ |c| < 0 := by simp
      rwa [decide_eq_false hnonneg, magnitudeChars_abs] at htext

theorem coefficientText_abs (c : Rat) (alone : Bool) :
    coefficientText |c| alone true = if |c| = 1 ∧ alone = false then [] else magnitudeChars c := by
  have hnonneg : ¬ |c| < 0 := by simp
  rw [coefficientText, decide_eq_false hnonneg, abs_abs, magnitudeChars_abs]
  rfl

def sideChars (c : Rat) (isSigned : Bool) (pieces : List (List Char)) : List Char :=
  juxtapose (coefficientText c pieces.isEmpty isSigned) pieces

theorem exists_side {b : Rat} {pieces : List (List Char)} {factors : List Factor}
    (hwritten : IsWritten b) (h : SpellsFactors pieces factors) :
    ∃ p : Phrase .product, Reads (Text.withoutBlanks (sideChars |b| true pieces)) p.lexemes ∧
      Text.BeginsPlainly (sideChars |b| true pieces) ∧
      ((|b| = 1 → Factor.LeadsWithAtom factors) → p.LeadsWithAtom) ∧
      ∀ I q, Factor.product? I factors = some q →
        p.value? I = some (|b| * q) ∧ p.signed.value? I = some (-(|b| * q)) := by
  obtain ⟨ps, hps, hleads, hproduct⟩ := h
  obtain ⟨n, hn⟩ := exists_isNumeral hwritten
  rw [sideChars, coefficientText_abs]
  cases hps with
  | nil =>
    rw [if_neg (by simp), juxtapose_nil, hn.withoutBlanks]
    refine ⟨n, hn.reads, Text.beginsPlainly_of_digit hn.begins, fun _ => hn.leads,
      fun I q hq => ?_⟩
    obtain rfl := Option.some.inj (hproduct I q hq)
    rw [Rat.mul_one]
    exact ⟨hn.value I, hn.signedValue I⟩
  | @cons w p pieces ps hw hps =>
    by_cases hone : |b| = 1
    · rw [if_pos ⟨hone, rfl⟩, nil_juxtapose, intercalate_cons]
      refine ⟨(Phrase.power p).times ps, reads_times hw.1 hps, hw.2.append _, fun hatom => ?_,
        fun I q hq => ?_⟩
      · exact Phrase.leadsWithAtom_times (hleads (hatom hone) p rfl) ps
      · obtain ⟨a, c, ha, hc, rfl⟩ := Phrase.product?_cons_eq_some.mp (hproduct I q hq)
        have hsigned : (Phrase.power p).signed.value? I = some (-1 * a) :=
          Phrase.value?_multiply.mpr ⟨-1, a, rfl, ha, rfl⟩
        rw [Phrase.signed_times, Phrase.value?_times ha hc, Phrase.value?_times hsigned hc, hone]
        exact ⟨by rw [Rat.one_mul], by congr 1; ring⟩
    · obtain ⟨v, o, ho, hcases, htext, hv, u, hu⟩ := hn.juxtapose hw.1 hw.2 pieces
      rw [if_neg (by simp [hone]), htext]
      refine ⟨(Phrase.multiply n o ho p).times ps, reads_times hv hps, ?_, fun _ => ?_,
        fun I q hq => ?_⟩
      · rw [hu, List.append_assoc]
        exact (Text.beginsPlainly_of_digit hn.begins).append _
      · refine Phrase.leadsWithAtom_times ?_ ps
        simpa [Phrase.LeadsWithAtom] using hn.leads
      · obtain ⟨a, c, ha, hc, rfl⟩ := Phrase.product?_cons_eq_some.mp (hproduct I q hq)
        have hcompute : ∀ x, o.compute? I x a = some (x * a) := by
          rcases hcases with rfl | rfl <;> exact fun x => rfl
        have hvalue : (Phrase.multiply n o ho p).value? I = some (|b| * a) :=
          Phrase.value?_multiply.mpr ⟨|b|, a, hn.value I, ha, hcompute |b|⟩
        have hsigned : (Phrase.multiply n o ho p).signed.value? I = some (-|b| * a) := by
          rw [Phrase.signed]
          exact Phrase.value?_multiply.mpr ⟨-|b|, a, hn.signedValue I, ha, hcompute (-|b|)⟩
        rw [Phrase.signed_times, Phrase.value?_times hvalue hc, Phrase.value?_times hsigned hc]
        exact ⟨by rw [mul_assoc], by congr 1; ring⟩

variable {c : Rat} {pieces : List (List Char)} {factors : List Factor}

theorem coefficientText_unsigned (c : Rat) (alone : Bool) :
    coefficientText c alone false = coefficientText |c| alone true := by
  rw [coefficientText_abs]
  rfl

theorem sideChars_unsigned (c : Rat) (pieces : List (List Char)) :
    sideChars c false pieces = sideChars |c| true pieces := by
  rw [sideChars, sideChars, coefficientText_unsigned]

theorem sideChars_signed (hwritten : IsWritten c) (h : SpellsFactors pieces factors) :
    sideChars c true pieces = signed (decide (c < 0)) (sideChars |c| true pieces) := by
  by_cases hneg : c < 0
  · obtain ⟨n, hn⟩ := exists_isNumeral hwritten
    obtain ⟨ps, hps, -⟩ := h
    have hpieces : ∀ w, pieces.head? = some w → w ≠ [] := by
      rintro w hw rfl
      cases hps with
      | nil => cases hw
      | cons hpiece _ =>
        cases hw
        obtain ⟨d, v, hd, -⟩ := hpiece.2
        cases hd
    have hsign : coefficientText |c| pieces.isEmpty true ≠ ['-'] := by
      rw [coefficientText_abs]
      split
      · simp
      · obtain ⟨d, v, hd, hdigit⟩ := hn.begins
        rw [hd]
        rintro ⟨⟩
        cases hdigit
    have hcoefficient : coefficientText c pieces.isEmpty true =
        '-' :: coefficientText |c| pieces.isEmpty true := by
      rw [coefficientText_abs, coefficientText, decide_eq_true hneg]
      rfl
    rw [decide_eq_true hneg, sideChars, sideChars, hcoefficient, juxtapose_minus hsign hpieces]
    rfl
  · rw [decide_eq_false hneg, abs_of_nonneg (not_lt.mp hneg)]
    rfl

/-- A coefficient with factors after it spells their product, with its sign before it. -/
theorem spells_side {start : Prop} (hwritten : IsWritten c) (h : SpellsFactors pieces factors)
    (hsign : c = -1 → start ∨ Factor.LeadsWithAtom factors) :
    Tier.product.SpellsSigned start (sideChars c true pieces)
      fun I => (Factor.product? I factors).map (c * ·) := by
  obtain ⟨p, hp, hplain, hleads, hvalue⟩ :=
    exists_side hwritten h
  rw [sideChars_signed hwritten h]
  by_cases hneg : c < 0
  · have habs : |c| = -c := abs_of_neg hneg
    refine .inr ⟨_, p, by rw [decide_eq_true hneg]; rfl, hp, hplain, ?_, fun I q hq => ?_⟩
    · by_cases hone : c = -1
      · exact (hsign hone).imp_right fun hatom => hleads fun _ => hatom
      · refine .inr (hleads fun hone' => absurd ?_ hone)
        linarith
    · obtain ⟨r, hr, rfl⟩ := Option.map_eq_some_iff.mp hq
      rw [(hvalue I r hr).2, habs, neg_mul, neg_neg]
  · refine .inl ⟨p, ?_, ?_, fun I q hq => ?_⟩
    · rw [decide_eq_false hneg]
      exact hp
    · rw [decide_eq_false hneg]
      exact hplain
    · obtain ⟨r, hr, rfl⟩ := Option.map_eq_some_iff.mp hq
      rw [(hvalue I r hr).1, abs_of_nonneg (not_lt.mp hneg)]

theorem spells_side_unsigned (hwritten : IsWritten c) (h : SpellsFactors pieces factors) :
    Tier.product.Spells (sideChars c false pieces)
      fun I => (Factor.product? I factors).map (|c| * ·) := by
  obtain ⟨p, hp, hplain, -, hvalue⟩ := exists_side hwritten h
  rw [sideChars_unsigned]
  refine ⟨p, hp, hplain, fun I q hq => ?_⟩
  obtain ⟨r, hr, rfl⟩ := Option.map_eq_some_iff.mp hq
  exact (hvalue I r hr).1

/-- The text of a denominator, in brackets if there is more than one part to it. -/
def denominatorChars (c : Rat) (isSigned : Bool) (pieces : List (List Char)) : List Char :=
  if 1 < pieces.length + (if (coefficientText c pieces.isEmpty isSigned).isEmpty then 0 else 1) then
    bracketed (sideChars c isSigned pieces)
  else sideChars c isSigned pieces

theorem denominatorChars_unsigned (c : Rat) (pieces : List (List Char)) :
    denominatorChars c false pieces = denominatorChars |c| true pieces := by
  rw [denominatorChars, denominatorChars, coefficientText_unsigned, sideChars_unsigned]

theorem exists_lone (hwritten : IsWritten c) (hratio : ¬ IsRatio c) :
    ∃ r : Phrase .power,
      Reads (Text.withoutBlanks (signed (decide (c < 0)) (magnitudeChars c))) r.lexemes ∧
      ∀ I, r.value? I = some c := by
  have hspells := spells_magnitudeChars hwritten hratio
  have hblanks := Text.withoutBlanks_eq_self fun a => hspells.isBlank (c := a)
  by_cases hneg : c < 0
  · refine ⟨.unary (.negation (Numeral.operand (magnitudeChars c) |c|)), ?_, fun I => ?_⟩
    · rw [decide_eq_true hneg, signed, if_pos rfl, Text.withoutBlanks_cons (by decide), hblanks]
      have hplain := (Text.beginsPlainly_of_digit hspells.exists_cons).head?_ne
      rw [hblanks] at hplain
      exact hspells.reads.signed hplain
    · have habs : -|c| = c := by rw [abs_of_neg hneg, neg_neg]
      exact congrArg some habs
  · refine ⟨.unary (.atom (Numeral.operand (magnitudeChars c) |c|)), ?_, fun I => ?_⟩
    · rw [decide_eq_false hneg, signed, if_neg (by simp), hblanks]
      exact hspells.reads
    · exact congrArg some (abs_of_nonneg (not_lt.mp hneg))

theorem coefficientText_eq_nil (hwritten : IsWritten c) (h : coefficientText c false true = []) :
    c = 1 := by
  obtain ⟨n, hn⟩ := exists_isNumeral hwritten
  obtain ⟨d, v, hd, -⟩ := hn.begins
  have hneg : ¬ c < 0 := by
    intro hneg
    simp [coefficientText, hneg, signed] at h
  have habs : |c| = 1 := by
    by_contra hone
    simp [coefficientText, hneg, hone, hd, signed] at h
  rwa [abs_of_nonneg (not_lt.mp hneg)] at habs

theorem exists_denominator (hwritten : IsWritten c) (h : SpellsFactors pieces factors)
    (hsign : c = -1 → Factor.LeadsWithAtom factors) (hratio : pieces = [] → ¬ IsRatio c) :
    ∃ r : Phrase .power,
      Reads (Text.withoutBlanks (denominatorChars c true pieces)) r.lexemes ∧
      ∀ I q, Factor.product? I factors = some q → r.value? I = some (c * q) := by
  rw [denominatorChars]
  by_cases hparts : 1 < pieces.length +
      if (coefficientText c pieces.isEmpty true).isEmpty then 0 else 1
  · have hside : Tier.product.SpellsSigned False (sideChars c true pieces)
        fun I => (Factor.product? I factors).map (c * ·) :=
      spells_side hwritten h fun hone => .inr (hsign hone)
    obtain ⟨r, hr, -, hvalue⟩ := hside.sum.within.bracketed.unary.power
    rw [if_pos hparts]
    refine ⟨r, hr, fun I q hq => hvalue I (c * q) ?_⟩
    simp [hq]
  · rw [if_neg hparts]
    obtain ⟨ps, hps, -, hproduct⟩ := h
    cases hps with
    | nil =>
      obtain ⟨r, hr, hvalue⟩ := exists_lone hwritten (hratio rfl)
      have htext : sideChars c true [] = signed (decide (c < 0)) (magnitudeChars c) := by
        simp [sideChars, coefficientText, juxtapose_nil]
      rw [htext]
      refine ⟨r, hr, fun I q hq => ?_⟩
      obtain rfl := Option.some.inj (hproduct I q hq)
      rw [hvalue, Rat.mul_one]
    | @cons w p pieces ps hpiece hps =>
      rw [List.isEmpty_cons, List.length_cons] at hparts
      have hcoefficient : coefficientText c false true = [] := by
        by_contra hne
        rw [if_neg (by simpa using hne)] at hparts
        omega
      have hrest : pieces = [] := by
        by_contra hne
        have hlength := List.length_pos_iff.mpr hne
        omega
      subst hrest
      cases hps
      have htext : sideChars c true [w] = w := by
        rw [sideChars, List.isEmpty_cons, hcoefficient, nil_juxtapose, intercalate_cons]
        simp
      rw [htext]
      refine ⟨p, hpiece.1, fun I q hq => ?_⟩
      obtain ⟨a, b, ha, hb, rfl⟩ := Phrase.product?_cons_eq_some.mp (hproduct I q hq)
      obtain rfl := Option.some.inj hb
      rw [ha, coefficientText_eq_nil hwritten hcoefficient, Rat.one_mul, Rat.mul_one]

end Value

end SymbolicAlgebra
