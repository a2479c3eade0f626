import SymbolicAlgebra.Literal
import SymbolicAlgebra.Proofs.Decimals
import SymbolicAlgebra.Proofs.Outcome

/-!
# The precision of written numbers

The text of an exact number may be read as a numeral again. A whole number comes back as it was, and
a fraction with a finite decimal rounded to the digits that are written, so it comes back if and
only if it has no more of them. A ratio is no numeral. Whole numbers from `10 ^ 4300` on have no
text, nor have fractions that are rounded to `10 ^ 1000000` or more.
-/

namespace SymbolicAlgebra

open Text (isDecimalDigit)

namespace Numeral

theorem readWord?_digit {c : Char} (h : c.isDigit = true) (negative : Bool) (v : List Char) :
    readWord? negative (c :: v) = none := by
  obtain ⟨hlow, hhigh⟩ := Text.toNat_of_isDigit h
  have hrange : ∀ n ≤ 57, 48 ≤ n → (Char.ofNat n).isAlpha = false := by decide
  have hletter : c.isAlpha = false := by
    rw [← Char.ofNat_toNat c]
    exact hrange c.toNat hhigh hlow
  simp [readWord?, hletter]

theorem read?_ratio (negative : Bool) (n d : Nat) :
    read? (Value.signed negative (Decimal.digitChars n ++ '/' :: Decimal.digitChars d)) = none := by
  have hdigits : ∀ {n : Nat}, ∀ c ∈ Decimal.digitChars n, c.isDigit = true := fun c hc =>
    Nat.isDigit_of_mem_toDigits (b := 10) (by decide) (by decide) hc
  obtain ⟨first, rest, hn, hfirst⟩ := (spells_digitChars n).exists_cons
  obtain ⟨last, hd, hlast⟩ := (spells_digitChars d).isDigit_getLast
  have hplain : '_' ∉ Decimal.digitChars n ++ '/' :: Decimal.digitChars d := by
    have hunderscore : ∀ k : Nat, '_' ∉ Decimal.digitChars k := fun k h =>
      absurd (hdigits _ h) (by decide)
    simp [hunderscore]
  have hsign := takeSign_signed (v := Decimal.digitChars n ++ '/' :: Decimal.digitChars d)
    ⟨first, by rw [hn]; rfl, hfirst⟩
    ⟨last, by simp [List.getLast?_append, List.getLast?_cons, hd], hlast⟩ hplain negative
  have hslash : isDecimalDigit '/' = false := by decide
  obtain ⟨htake, hdrop⟩ : (Decimal.digitChars n ++ '/' :: Decimal.digitChars d).takeWhile
        isDecimalDigit = Decimal.digitChars n ∧
      (Decimal.digitChars n ++ '/' :: Decimal.digitChars d).dropWhile isDecimalDigit =
        '/' :: Decimal.digitChars d :=
    takeWhile_digits hdigits (by simpa using hslash)
  have hwritten : readWritten? (Decimal.digitChars n ++ '/' :: Decimal.digitChars d) = none := by
    simp [readWritten?, htake, hdrop, readExponent?]
  rw [read?, hsign]
  dsimp only
  rw [hwritten, hn]
  exact readWord?_digit hfirst negative _

end Numeral

namespace Value

variable {q r : Rat} {w : List Char}

theorem value_of_spells (h : Numeral.Spells w r) (negative : Bool) :
    (Literal.numeral (String.ofList (signed negative w))).value =
      .ok (.exact (if negative then -r else r)) := by
  obtain ⟨x, hx, hvalue⟩ := Option.bind_eq_some_iff.mp (h.read? negative)
  have hread : Literal.readDecimal (String.ofList (signed negative w)) = .ok x := by
    rw [Literal.readDecimal, String.toList_ofList, hx]
    rfl
  rw [Literal.value, hread, Outcome.ok_bind]
  simp only [Literal.decimalValue, hvalue]
  rfl

theorem format_eq_ok {text : String} (h : (exact q).format = .ok text) :
    text = String.ofList (signed (decide (q < 0)) (magnitudeChars q)) := by
  obtain ⟨w, hw, h⟩ := Outcome.bind_eq_ok.mp h
  rw [← Except.ok.inj h, exactChars_eq_ok hw]

theorem format_of_error {e : Fault} (h : exactChars q = .error e) : (exact q).format = .error e := by
  rw [format, toChars, h]
  rfl

theorem value_format_of_isRatio {text : String} (hratio : IsRatio q)
    (h : (exact q).format = .ok text) : (Literal.numeral text).value = .error .malformedNumeral := by
  rw [format_eq_ok h, magnitudeChars_of_isRatio hratio, Literal.value, Literal.readDecimal,
    String.toList_ofList, Numeral.read?_ratio]
  rfl

/-- The number that the text of an exact number spells. -/
def written (q : Rat) : Rat := if q < 0 then -writtenMagnitude q else writtenMagnitude q

theorem sign_abs (q : Rat) : (if q < 0 then -|q| else |q|) = q := by
  by_cases hneg : q < 0
  · rw [if_pos hneg, abs_of_neg hneg, neg_neg]
  · rw [if_neg hneg, abs_of_nonneg (not_lt.mp hneg)]

theorem written_of_den_eq_one (hden : q.den = 1) : written q = q := by
  rw [written, writtenMagnitude, if_pos hden, sign_abs]

theorem roundsTo_written (hden : q.den ≠ 1) : Decimal.RoundsTo significantDigits q (written q) := by
  have hround := roundsTo_writtenMagnitude hden
  rw [written]
  nth_rewrite 1 [← sign_abs q]
  split
  · exact hround.neg
  · exact hround

theorem abs_written (hden : q.den ≠ 1) :
    |written q| = (Decimal.quotient significantDigits q.num.natAbs q.den).toRat := by
  have hnonneg : 0 ≤ (Decimal.quotient significantDigits q.num.natAbs q.den).toRat := by
    rw [Decimal.toRat]
    positivity
  rw [written, writtenMagnitude, if_neg hden]
  split
  · rw [abs_neg, abs_of_nonneg hnonneg]
  · exact abs_of_nonneg hnonneg

theorem value_format_of_places (hratio : ¬ IsRatio q) {w : List Char}
    (hw : w = signed (decide (q < 0)) (magnitudeChars q)) :
    (Literal.numeral (String.ofList w)).value = .ok (.exact (written q)) := by
  rw [hw, value_of_spells (spells_writtenMagnitude hratio), written]
  simp only [decide_eq_true_eq]

/-- The text of a whole number, or of a fraction with a finite decimal, is read as the number
rounded to the digits that are written, which is the number itself if it has no more of them. There
is no text if the number is whole and has too many digits, or if it is rounded to one beyond the
range of decimals. -/
theorem value_format_rounded (h : q.den = 1 ∨ (exact q).decimalPlaces? ≠ none) :
    ∃ r, (r = q ↔ q.den = 1 ∨ Decimal.HasDigits significantDigits q) ∧
      (q.den ≠ 1 → Decimal.RoundsTo significantDigits q r) ∧
      if q.den = 1 ∧ 10 ^ Decimal.maxDigits ≤ |q| then (exact q).format = .error .tooManyDigits
      else if q.den ≠ 1 ∧ 10 ^ (highestExponent + 1) ≤ |r| then
        (exact q).format = .error .decimalOverflow
      else ∃ text, (exact q).format = .ok text ∧ (Literal.numeral text).value = .ok (.exact r) := by
  have hratio : ¬ IsRatio q := by
    rcases h with h | h
    · exact fun hratio => hratio.den_ne_one h
    · exact h
  have hread := value_format_of_places hratio rfl
  by_cases hden : q.den = 1
  · have hsame := written_of_den_eq_one hden
    have hchars := exactChars_of_den_eq_one hden
    refine ⟨written q, by simp [hsame, hden], fun hne => absurd hden hne, ?_⟩
    split
    · next hlimit => exact format_of_error (by rw [hchars, if_pos hlimit.2])
    · next hlimit =>
      rw [if_neg fun hand => hand.1 hden]
      rw [if_neg fun hle => hlimit ⟨hden, hle⟩] at hchars
      exact ⟨_, by rw [format, toChars, hchars]; rfl, hread⟩
  · have hround := roundsTo_written hden
    have hchars := exactChars_of_places hden hratio
    rw [← abs_written hden] at hchars
    refine ⟨written q, by rw [hround.eq_iff, or_iff_right hden], fun _ => hround, ?_⟩
    rw [if_neg fun hand => hden hand.1]
    split
    · next hlimit => exact format_of_error (by rw [hchars, if_pos hlimit.2])
    · next hlimit =>
      rw [if_neg fun hle => hlimit ⟨hden, hle⟩] at hchars
      exact ⟨_, by rw [format, toChars, hchars]; rfl, hread⟩

/-- A half with 29 digits comes back as the even one of the two whole numbers next to it. -/
theorem value_format_rounded_of_half :
    (exact (mkRat 24691357802469135780246913579 2)).decimalPlaces? ≠ none ∧
      (exact (mkRat 24691357802469135780246913579 2)).format =
        .ok "12345678901234567890123456790" ∧
      (Literal.numeral "12345678901234567890123456790").value =
        .ok (.exact 12345678901234567890123456790) ∧
      ¬ Decimal.HasDigits significantDigits (mkRat 24691357802469135780246913579 2) ∧
      Decimal.RoundsTo significantDigits (mkRat 24691357802469135780246913579 2)
        12345678901234567890123456790 := by
  have hplaces : (exact (mkRat 24691357802469135780246913579 2)).decimalPlaces? ≠ none := by decide
  have hden : (mkRat 24691357802469135780246913579 2).den ≠ 1 := by decide
  have htext : (exact (mkRat 24691357802469135780246913579 2)).format =
      .ok "12345678901234567890123456790" := by decide +kernel
  have hread : (Literal.numeral "12345678901234567890123456790").value =
      .ok (.exact 12345678901234567890123456790) := by
    have hdigits : "12345678901234567890123456790" =
        String.ofList (signed false (Decimal.digitChars 12345678901234567890123456790)) := by
      decide +kernel
    rw [hdigits]
    exact value_of_spells (Numeral.spells_digitChars _) false
  obtain ⟨r, hsame, hrounds, hformat⟩ := value_format_rounded (.inr hplaces)
  have hr : r = 12345678901234567890123456790 := by
    rw [htext, if_neg fun hand => hden hand.1] at hformat
    split at hformat
    · cases hformat
    · obtain ⟨text, hsame, hvalue⟩ := hformat
      rw [← Except.ok.inj hsame, hread] at hvalue
      cases hvalue
      rfl
  subst hr
  refine ⟨hplaces, htext, hread, fun hdigits => ?_, hrounds hden⟩
  exact absurd (hsame.mpr (.inr hdigits)) (by decide)

end Value

end SymbolicAlgebra
