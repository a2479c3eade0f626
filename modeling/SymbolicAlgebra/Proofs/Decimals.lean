import Mathlib.Data.Rat.Lemmas
import Mathlib.Tactic.LinearCombination
import Mathlib.Tactic.Positivity
import Mathlib.Tactic.Ring
import SymbolicAlgebra.Formula.Lexeme
import SymbolicAlgebra.Proofs.DecimalPlaces
import SymbolicAlgebra.Proofs.Outcome
import SymbolicAlgebra.Proofs.Rounding
import SymbolicAlgebra.Value.Printer

/-!
# Written numbers

`Spells` relates a text of digits, with at most one point among them, to the number it stands for.
Such a text is read as that number. The text of an exact number without a sign spells it, unless it
is a ratio or the number has more significant digits than are written. A whole number with too many
digits has no text, nor has a fraction beyond the range of decimals.
-/

namespace SymbolicAlgebra

namespace Text

theorem toNat_of_isDigit {c : Char} (h : c.isDigit = true) : 48 ≤ c.toNat ∧ c.toNat ≤ 57 := by
  simpa [Char.isDigit, UInt32.le_iff_toNat_le] using h

theorem digitValue?_of_isDigit {c : Char} (h : c.isDigit = true) :
    digitValue? c = some (c.toNat - 48) := by
  obtain ⟨hlow, hhigh⟩ := toNat_of_isDigit h
  have hlow' : ¬ c.toNat < 0x30 := by omega
  have hfirst : digitZeros.find? (fun first => first ≤ c.toNat && c.toNat < first + 10) =
      some 48 := by
    refine List.find?_cons_of_pos (p := fun first => first ≤ c.toNat && c.toNat < first + 10) ?_
    simp only [Bool.and_eq_true, decide_eq_true_eq]
    omega
  rw [digitValue?, if_neg hlow', hfirst]
  rfl

theorem isDecimalDigit_of_isDigit {c : Char} (h : c.isDigit = true) :
    isDecimalDigit c = true := by
  simp [isDecimalDigit, digitValue?_of_isDigit h]

theorem isBlank_of_isDigit {c : Char} (h : c.isDigit = true) : isBlank c = false := by
  obtain ⟨hlow, hhigh⟩ := toNat_of_isDigit h
  have hrange : ∀ n ≤ 57, 48 ≤ n → inRanges blankRanges n = false := by decide
  exact hrange c.toNat hhigh hlow

theorem ne_of_isDigit {c d : Char} (h : c.isDigit = true) (hd : d.isDigit = false) : c ≠ d := by
  rintro rfl
  simp [h] at hd

end Text

namespace Numeral

open Text

theorem digitsValue_eq {w : List Char} (h : ∀ c ∈ w, c.isDigit = true) :
    digitsValue w = Nat.ofDigitChars 10 w 0 := by
  have haux : ∀ n, w.foldl (fun n c => 10 * n + (digitValue? c).getD 0) n =
      Nat.ofDigitChars 10 w n := by
    induction w with
    | nil => simp
    | cons c w ih =>
      obtain ⟨hc, hw⟩ := List.forall_mem_cons.mp h
      intro n
      rw [List.foldl_cons, ih hw, Nat.ofDigitChars_cons, digitValue?_of_isDigit hc]
      rfl
  exact haux 0

/-- The digits after a point, with the point; nothing if there are none. -/
def pointed (fraction : List Char) : List Char :=
  if fraction = [] then [] else '.' :: fraction

/-- A text of digits, perhaps with a point and digits after it, that stands for a number. -/
def Spells (w : List Char) (q : Rat) : Prop :=
  ∃ whole fraction : List Char, whole ≠ [] ∧ (∀ c ∈ whole ++ fraction, c.isDigit = true) ∧
    w = whole ++ pointed fraction ∧
    q = Nat.ofDigitChars 10 (whole ++ fraction) 0 / 10 ^ fraction.length

theorem spells_digitChars (n : Nat) : Spells (Decimal.digitChars n) n := by
  refine ⟨Decimal.digitChars n, [], Nat.toDigits_ne_nil, ?_, by simp [pointed], ?_⟩
  · intro c hc
    rw [List.append_nil] at hc
    exact Nat.isDigit_of_mem_toDigits (b := 10) (by decide) (by decide) hc
  · simp [Decimal.digitChars, Nat.ofDigitChars_toDigits]

variable {w : List Char} {q : Rat}

theorem Spells.isDigit_or (h : Spells w q) {c : Char} (hc : c ∈ w) : c.isDigit = true ∨ c = '.' := by
  obtain ⟨whole, fraction, -, hdigits, rfl, -⟩ := h
  rcases List.mem_append.mp hc with hc | hc
  · exact .inl (hdigits c (List.mem_append_left _ hc))
  · unfold pointed at hc
    split at hc
    · simp at hc
    · rcases List.mem_cons.mp hc with rfl | hc
      · exact .inr rfl
      · exact .inl (hdigits c (List.mem_append_right _ hc))

theorem Spells.exists_cons (h : Spells w q) : ∃ c v, w = c :: v ∧ c.isDigit = true := by
  obtain ⟨whole, fraction, hne, hdigits, rfl, -⟩ := h
  obtain ⟨c, v, rfl⟩ := List.exists_cons_of_ne_nil hne
  exact ⟨c, _, rfl, hdigits c (by simp)⟩

theorem Spells.isDigit_getLast (h : Spells w q) :
    ∃ c, w.getLast? = some c ∧ c.isDigit = true := by
  obtain ⟨whole, fraction, hne, hdigits, rfl, -⟩ := h
  by_cases hf : fraction = []
  · refine ⟨whole.getLast hne, by simp [pointed, hf, List.getLast?_eq_some_getLast hne], ?_⟩
    exact hdigits _ (List.mem_append_left _ (List.getLast_mem hne))
  · refine ⟨fraction.getLast hf, ?_, hdigits _ (List.mem_append_right _ (List.getLast_mem hf))⟩
    simp [pointed, hf, List.getLast?_append, List.getLast?_cons_of_ne_nil hf,
      List.getLast?_eq_some_getLast hf]

theorem takeSign_signed {v : List Char} (hfirst : ∃ c, v.head? = some c ∧ c.isDigit = true)
    (hlast : ∃ c, v.getLast? = some c ∧ c.isDigit = true) (hplain : '_' ∉ v) (negative : Bool) :
    takeSign ((trimmed (Value.signed negative v)).filter (· ≠ '_')) = (negative, v) := by
  obtain ⟨c, hhead, hc⟩ := hfirst
  obtain ⟨u, rfl⟩ : ∃ u, v = c :: u := List.head?_eq_some_iff.mp hhead
  obtain ⟨d, hlast, hd⟩ := hlast
  have htrimmed : trimmed (Value.signed negative (c :: u)) = Value.signed negative (c :: u) := by
    have hback : ∃ back, (Value.signed negative (c :: u)).reverse = d :: back := by
      rw [← List.head?_eq_some_iff, List.head?_reverse]
      cases negative <;> simpa [Value.signed] using hlast
    have hfront : (Value.signed negative (c :: u)).dropWhile isBlank =
        Value.signed negative (c :: u) := by
      cases negative
      · exact List.dropWhile_cons_of_neg (by simp [isBlank_of_isDigit hc])
      · exact List.dropWhile_cons_of_neg (by decide)
    obtain ⟨back, hback⟩ := hback
    rw [trimmed, hfront, hback, List.dropWhile_cons_of_neg (by simp [isBlank_of_isDigit hd]),
      ← hback, List.reverse_reverse]
  have hunderscores : (c :: u).filter (· ≠ '_') = c :: u :=
    List.filter_eq_self.mpr fun a ha => decide_eq_true (ne_of_mem_of_not_mem ha hplain)
  rw [htrimmed]
  cases negative
  · have hminus : c ≠ '-' := ne_of_isDigit hc (by decide)
    have hplus : c ≠ '+' := ne_of_isDigit hc (by decide)
    change takeSign ((c :: u).filter (· ≠ '_')) = _
    rw [hunderscores]
    simp [takeSign, hminus, hplus]
  · change takeSign ('-' :: (c :: u).filter (· ≠ '_')) = _
    rw [hunderscores]
    rfl

theorem Spells.takeSign (h : Spells w q) (negative : Bool) :
    Numeral.takeSign ((trimmed (Value.signed negative w)).filter (· ≠ '_')) = (negative, w) := by
  obtain ⟨c, v, hw, hc⟩ := h.exists_cons
  refine takeSign_signed ⟨c, by rw [hw, List.head?_cons], hc⟩ h.isDigit_getLast (fun hmem => ?_)
    negative
  rcases h.isDigit_or hmem with hdigit | hpoint
  · exact absurd hdigit (by decide)
  · exact absurd hpoint (by decide)

theorem takeWhile_digits {whole rest : List Char} (h : ∀ c ∈ whole, c.isDigit = true)
    (hrest : ∀ c, rest.head? = some c → isDecimalDigit c = false) :
    (whole ++ rest).takeWhile isDecimalDigit = whole ∧
      (whole ++ rest).dropWhile isDecimalDigit = rest := by
  induction whole with
  | nil =>
    cases rest with
    | nil => simp
    | cons c rest => simp [hrest c rfl]
  | cons c whole ih =>
    obtain ⟨hc, hwhole⟩ := List.forall_mem_cons.mp h
    simp [isDecimalDigit_of_isDigit hc, ih hwhole]

theorem isDecimalDigit_point : isDecimalDigit '.' = false := by decide

theorem all_isDecimalDigit {v : List Char} (h : ∀ c ∈ v, c.isDigit = true) :
    v.takeWhile isDecimalDigit = v ∧ v.dropWhile isDecimalDigit = [] := by
  have hnil : ∀ c, ([] : List Char).head? = some c → isDecimalDigit c = false := by simp
  simpa using takeWhile_digits h hnil

theorem takeWhile_pointed {whole : List Char} (h : ∀ c ∈ whole, c.isDigit = true)
    (fraction : List Char) :
    (whole ++ pointed fraction).takeWhile isDecimalDigit = whole ∧
      (whole ++ pointed fraction).dropWhile isDecimalDigit = pointed fraction := by
  refine takeWhile_digits h fun c hc => ?_
  unfold pointed at hc
  split at hc
  · cases hc
  · cases hc
    exact isDecimalDigit_point

theorem readWritten?_pointed {whole fraction : List Char} (hne : whole ≠ [])
    (hw : ∀ c ∈ whole, c.isDigit = true) (hf : ∀ c ∈ fraction, c.isDigit = true) :
    readWritten? (whole ++ pointed fraction) = some ⟨whole, fraction, 0⟩ := by
  obtain ⟨htake, hdrop⟩ := takeWhile_pointed hw fraction
  obtain ⟨htake', hdrop'⟩ := all_isDecimalDigit hf
  rw [readWritten?, htake, hdrop]
  by_cases h : fraction = []
  · simp [pointed, h, hne, readExponent?]
  · simp [pointed, h, hne, htake', hdrop', readExponent?]

theorem isNumber_pointed {whole fraction : List Char} (hne : whole ≠ [])
    (hw : ∀ c ∈ whole, c.isDigit = true) (hf : ∀ c ∈ fraction, c.isDigit = true) :
    Lexeme.isNumber (whole ++ pointed fraction) = true := by
  obtain ⟨htake, hdrop⟩ := takeWhile_pointed hw fraction
  have hminus : (whole ++ pointed fraction).head? ≠ some '-' := by
    rw [List.head?_append_of_ne_nil _ hne]
    intro h
    exact ne_of_isDigit (hw _ (List.mem_of_head? h)) (by decide) rfl
  rw [Lexeme.isNumber, if_neg hminus, htake, hdrop]
  by_cases h : fraction = []
  · simpa [pointed, h] using hne
  · simpa [pointed, h] using fun c hc => isDecimalDigit_of_isDigit (hf c hc)

theorem toRat?_finite (negative : Bool) (digits : Nat) (exponent : Int) :
    (finite negative digits exponent).toRat? =
      some ((if negative then -(digits : Rat) else digits) * 10 ^ exponent) := by
  obtain ⟨n, hn, hzero⟩ : ∃ n : Int, n = (if negative then -(digits : Int) else digits) ∧
      (digits = 0 → n = 0) := ⟨_, rfl, by rintro rfl; simp⟩
  have hsign : (n : Rat) = if negative then -(digits : Rat) else digits := by
    rw [hn]
    cases negative <;> simp
  simp only [toRat?, ← hn, ← hsign]
  split_ifs with hdigits hexponent
  · simp [hzero hdigits]
  · obtain ⟨k, rfl⟩ := Int.eq_ofNat_of_zero_le hexponent
    simp [Rat.mkRat_eq_div]
  · obtain ⟨k, hk⟩ := Int.eq_ofNat_of_zero_le (show 0 ≤ -exponent by omega)
    obtain rfl : exponent = -k := by omega
    simp [Rat.mkRat_eq_div, div_eq_mul_inv]

/-- A text that spells a number is read as that number, and with a minus before it as its
opposite. -/
theorem Spells.read? (h : Spells w q) (negative : Bool) :
    (Numeral.read? (Value.signed negative w)).bind toRat? = some (if negative then -q else q) := by
  have hsign := h.takeSign negative
  obtain ⟨whole, fraction, hne, hdigits, rfl, rfl⟩ := h
  have hw : ∀ c ∈ whole, c.isDigit = true := fun c hc => hdigits c (List.mem_append_left _ hc)
  have hf : ∀ c ∈ fraction, c.isDigit = true := fun c hc => hdigits c (List.mem_append_right _ hc)
  rw [Numeral.read?, hsign]
  simp only [readWritten?_pointed hne hw hf, WrittenDecimal.isInRange, WrittenDecimal.toNumeral,
    decide_true, Bool.true_or, if_true, Option.bind_some, WrittenDecimal.digits,
    WrittenDecimal.exponent, digitsValue_eq hdigits, toRat?_finite, zero_sub]
  cases negative <;> simp [div_eq_mul_inv]

theorem Spells.numberValue? (h : Spells w q) : Lexeme.numberValue? w = some q := by
  have hread := h.read? false
  obtain ⟨whole, fraction, hne, hdigits, rfl, -⟩ := h
  rw [Lexeme.numberValue?, isNumber_pointed hne
    (fun c hc => hdigits c (List.mem_append_left _ hc))
    (fun c hc => hdigits c (List.mem_append_right _ hc)), if_pos rfl]
  exact hread

end Numeral

namespace Decimal

theorem spells_positional (x : Decimal) : Numeral.Spells x.positional x.toRat := by
  unfold positional
  split
  · next h =>
    obtain ⟨k, hk⟩ := Int.eq_ofNat_of_zero_le h
    have hspells := Numeral.spells_digitChars (x.digits * 10 ^ x.exponent.toNat)
    rw [hk] at hspells ⊢
    simpa [toRat, hk] using hspells
  · next h =>
    obtain ⟨k, hk⟩ := Int.eq_ofNat_of_zero_le (show 0 ≤ -x.exponent by omega)
    have hexponent : x.exponent = -k := by omega
    simp only [hk, Int.toNat_natCast]
    obtain ⟨padded, hpadded⟩ : ∃ padded, padded =
      List.replicate (k + 1 - (digitChars x.digits).length) '0' ++ digitChars x.digits := ⟨_, rfl⟩
    have hlength : k + 1 ≤ padded.length := by
      rw [hpadded, List.length_append, List.length_replicate]
      omega
    have hvalue : Nat.ofDigitChars 10 padded 0 = x.digits := by
      rw [hpadded, Nat.ofDigitChars_append, Nat.ofDigitChars_replicate_zero, Nat.mul_zero]
      exact Nat.ofDigitChars_toDigits (by decide) (by decide)
    have hdigits : ∀ c ∈ padded, c.isDigit = true := by
      intro c hc
      rcases List.mem_append.mp (hpadded ▸ hc) with hc | hc
      · rw [List.eq_of_mem_replicate hc]
        rfl
      · exact Nat.isDigit_of_mem_toDigits (b := 10) (by decide) (by decide) hc
    rw [← hpadded]
    have htake : padded.take (padded.length - k) ≠ [] :=
      List.ne_nil_of_length_pos (by rw [List.length_take]; omega)
    have hdrop : padded.drop (padded.length - k) ≠ [] :=
      List.ne_nil_of_length_pos (by rw [List.length_drop]; omega)
    refine ⟨padded.take (padded.length - k), padded.drop (padded.length - k), htake, ?_, ?_, ?_⟩
    · rwa [List.take_append_drop]
    · rw [Numeral.pointed, if_neg hdrop]
    · rw [List.take_append_drop, hvalue, List.length_drop, toRat, hexponent,
        show padded.length - (padded.length - k) = k by omega]
      simp [div_eq_mul_inv]

end Decimal

namespace Value

theorem abs_exact (q : Rat) : (exact q).abs = exact |q| := by
  rw [abs]
  split
  · next h => rw [abs_of_neg h]
  · next h => rw [abs_of_nonneg (not_lt.mp h)]

theorem decimalPlaces?_abs (q : Rat) : (exact |q|).decimalPlaces? = (exact q).decimalPlaces? := by
  simp [decimalPlaces?, Rat.den_abs_eq_den]

theorem natAbs_num_abs (q : Rat) : |q|.num.natAbs = q.num.natAbs := by
  rw [Rat.num_abs_eq_abs_num, Int.natAbs_abs]

theorem abs_eq_natAbs_div_den (q : Rat) : |q| = q.num.natAbs / q.den := by
  rw [← natAbs_num_abs, ← Rat.den_abs_eq_den, ← Int.cast_natCast (R := Rat),
    Int.natAbs_of_nonneg (by simp)]
  exact (Rat.num_div_den _).symm

/-- A fraction that does not end is written as a ratio. -/
def IsRatio (q : Rat) : Prop := (exact q).decimalPlaces? = none

instance (q : Rat) : Decidable (IsRatio q) := inferInstanceAs (Decidable (_ = none))

theorem IsRatio.den_ne_one {q : Rat} (h : IsRatio q) : q.den ≠ 1 := by
  intro hden
  simp [IsRatio, decimalPlaces?, hden, placesOf?] at h

/-- The text of an exact number without its sign, however many digits it takes. -/
def magnitudeChars (q : Rat) : List Char :=
  if q.den = 1 then Decimal.digitChars q.num.natAbs
  else if IsRatio q then Decimal.digitChars q.num.natAbs ++ '/' :: Decimal.digitChars q.den
  else (Decimal.quotient significantDigits q.num.natAbs q.den).positional

theorem magnitudeChars_abs (q : Rat) : magnitudeChars |q| = magnitudeChars q := by
  have hratio : IsRatio |q| ↔ IsRatio q := by rw [IsRatio, decimalPlaces?_abs, IsRatio]
  simp only [magnitudeChars, hratio, Rat.den_abs_eq_den, natAbs_num_abs]

theorem magnitudeChars_of_isRatio {q : Rat} (h : IsRatio q) :
    magnitudeChars q = Decimal.digitChars q.num.natAbs ++ '/' :: Decimal.digitChars q.den := by
  rw [magnitudeChars, if_neg h.den_ne_one, if_pos h]

theorem integerChars_eq (n : Int) :
    integerChars n = if 10 ^ Decimal.maxDigits ≤ n.natAbs then .error .tooManyDigits
      else .ok (signed (decide (n < 0)) (Decimal.digitChars n.natAbs)) := by
  have hlength : Decimal.maxDigits < (Decimal.digitChars n.natAbs).length ↔
      10 ^ Decimal.maxDigits ≤ n.natAbs := by
    have hle : (Decimal.digitChars n.natAbs).length ≤ Decimal.maxDigits ↔
        n.natAbs < 10 ^ Decimal.maxDigits := Nat.length_toDigits_le_iff (by decide) (by decide)
    exact not_le.symm.trans ((not_congr hle).trans not_lt)
  simp only [integerChars, hlength]
  rfl

theorem quotientChars_eq {n : Int} {d : Nat} (hn : n ≠ 0) (hd : d ≠ 0) :
    quotientChars n d =
      if 10 ^ (highestExponent + 1) ≤ (Decimal.quotient significantDigits n.natAbs d).toRat then
        .error .decimalOverflow
      else
        .ok (signed (decide (n < 0)) (Decimal.quotient significantDigits n.natAbs d).positional) := by
  have hpos : 0 < (Decimal.quotient significantDigits n.natAbs d).toRat :=
    Decimal.quotient_pos (by decide) (Int.natAbs_ne_zero.mpr hn) hd
  have hexponent : highestExponent < (Decimal.quotient significantDigits n.natAbs d).leadingExponent ↔
      10 ^ (highestExponent + 1) ≤ (Decimal.quotient significantDigits n.natAbs d).toRat :=
    not_le.symm.trans ((not_congr (Decimal.leadingExponent_le_iff hpos)).trans not_lt)
  simp only [quotientChars, hexponent]
  rfl

theorem exactChars_of_den_eq_one {q : Rat} (h : q.den = 1) :
    exactChars q = if 10 ^ Decimal.maxDigits ≤ |q| then .error .tooManyDigits
      else .ok (signed (decide (q < 0)) (magnitudeChars q)) := by
  have hlimit : (10 ^ Decimal.maxDigits ≤ q.num.natAbs) ↔ (10 : Rat) ^ Decimal.maxDigits ≤ |q| := by
    rw [abs_eq_natAbs_div_den, h, Nat.cast_one, div_one]
    exact_mod_cast Iff.rfl
  rw [exactChars, if_pos h, integerChars_eq, magnitudeChars, if_pos h]
  simp only [hlimit, Rat.num_neg]

theorem exactChars_of_places {q : Rat} (hden : q.den ≠ 1) (hratio : ¬ IsRatio q) :
    exactChars q =
      if 10 ^ (highestExponent + 1) ≤
          (Decimal.quotient significantDigits q.num.natAbs q.den).toRat then
        .error .decimalOverflow
      else .ok (signed (decide (q < 0)) (magnitudeChars q)) := by
  have hnum : q.num ≠ 0 := by
    rw [Rat.num_ne_zero]
    rintro rfl
    exact hden rfl
  rw [exactChars, if_neg hden, if_pos (Option.isSome_iff_ne_none.mpr hratio),
    quotientChars_eq hnum q.den_nz, magnitudeChars, if_neg hden, if_neg hratio]
  simp only [Rat.num_neg]

/-- What is written of an exact number are its digits after its sign. -/
theorem exactChars_eq_ok {q : Rat} {w : List Char} (h : exactChars q = .ok w) :
    w = signed (decide (q < 0)) (magnitudeChars q) := by
  by_cases hden : q.den = 1
  · rw [exactChars_of_den_eq_one hden] at h
    split at h
    · cases h
    · exact (Except.ok.inj h).symm
  by_cases hratio : IsRatio q
  · rw [exactChars, if_neg hden, if_neg (by simp [show (exact q).decimalPlaces? = none from hratio]),
      ratioChars] at h
    obtain ⟨top, htop, h⟩ := Outcome.bind_eq_ok.mp h
    obtain ⟨bottom, hbottom, h⟩ := Outcome.bind_eq_ok.mp h
    rw [integerChars_eq] at htop hbottom
    split at htop
    · cases htop
    split at hbottom
    · cases hbottom
    rw [← Except.ok.inj h, ← Except.ok.inj htop, ← Except.ok.inj hbottom,
      magnitudeChars_of_isRatio hratio]
    simp only [Rat.num_neg]
    cases decide (q < 0) <;> rfl
  · rw [exactChars_of_places hden hratio] at h
    split at h
    · cases h
    · exact (Except.ok.inj h).symm

/-- An exact number all of whose digits are written: it is whole, it is written as a ratio, or it
has no more than 28 significant digits. -/
def IsWritten (q : Rat) : Prop :=
  q.den = 1 ∨ ∀ p, (exact q).decimalPlaces? = some p → |q| * 10 ^ p < 10 ^ significantDigits

theorem isWritten_abs {q : Rat} : IsWritten |q| ↔ IsWritten q := by
  simp [IsWritten, Rat.den_abs_eq_den, decimalPlaces?_abs]

theorem hasDigits_of_isWritten {q : Rat} (h : IsWritten q) (hden : q.den ≠ 1)
    (hratio : ¬ IsRatio q) : Decimal.HasDigits significantDigits q := by
  obtain ⟨p, hp⟩ := Option.ne_none_iff_exists'.mp hratio
  obtain ⟨m, hm⟩ : q.den ∣ q.num.natAbs * 10 ^ p := (placesOf?_eq_some_iff.mp hp).2.1.mul_left _
  have hden' : (q.den : Rat) ≠ 0 := by exact_mod_cast q.den_nz
  have hm' : |q| * 10 ^ p = m := by
    rw [abs_eq_natAbs_div_den, div_mul_eq_mul_div, div_eq_iff hden', mul_comm (m : Rat)]
    exact_mod_cast hm
  have hsmall := h.resolve_left hden p hp
  refine ⟨m, -p, ?_, ?_⟩
  · rw [hm'] at hsmall
    exact_mod_cast hsmall
  · rw [← hm', zpow_neg, zpow_natCast, mul_inv_cancel_right₀ (by positivity)]

/-- The number that the text of an exact number spells, but for its sign: the number itself if it is
whole, and otherwise the quotient rounded to the digits that are written. -/
def writtenMagnitude (q : Rat) : Rat :=
  if q.den = 1 then |q| else (Decimal.quotient significantDigits q.num.natAbs q.den).toRat

theorem roundsTo_writtenMagnitude {q : Rat} (hden : q.den ≠ 1) :
    Decimal.RoundsTo significantDigits |q| (writtenMagnitude q) := by
  have hnum : q.num.natAbs ≠ 0 := by
    rw [Int.natAbs_ne_zero, Rat.num_ne_zero]
    rintro rfl
    exact hden rfl
  rw [writtenMagnitude, if_neg hden, abs_eq_natAbs_div_den]
  exact Decimal.roundsTo_quotient (by decide) hnum q.den_nz

/-- The text of a number without its sign, unless it is a ratio, spells the number rounded to the
digits that are written. A whole number is written with all its digits. -/
theorem spells_writtenMagnitude {q : Rat} (hratio : ¬ IsRatio q) :
    Numeral.Spells (magnitudeChars q) (writtenMagnitude q) := by
  rw [magnitudeChars, writtenMagnitude]
  split
  · next hone =>
    have hspells := Numeral.spells_digitChars q.num.natAbs
    rwa [abs_eq_natAbs_div_den, hone, Nat.cast_one, div_one]
  · exact Decimal.spells_positional _

/-- The text of such a number spells it, but for its sign and unless it is a ratio. -/
theorem spells_magnitudeChars {q : Rat} (h : IsWritten q) (hratio : ¬ IsRatio q) :
    Numeral.Spells (magnitudeChars q) |q| := by
  have hspells := spells_writtenMagnitude hratio
  suffices hr : writtenMagnitude q = |q| by rwa [hr] at hspells
  by_cases hden : q.den = 1
  · exact if_pos hden
  · have hdigits := hasDigits_of_isWritten h hden hratio
    exact (roundsTo_writtenMagnitude hden).eq_iff.mpr (by simpa [Decimal.HasDigits] using hdigits)

end Value

end SymbolicAlgebra
