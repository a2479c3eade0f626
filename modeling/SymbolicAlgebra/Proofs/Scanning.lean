import SymbolicAlgebra.Formula.Lexeme
import SymbolicAlgebra.Proofs.Outcome

/-!
# Cutting a text into units

A text that is put together from operands, operators and brackets is cut back into them. `Cut` says
this of a part of a text wherever it may stand: from any scan that begins a new unit with the first
character of the part, the scan arrives at the units of the part. Each way to put parts together has
a lemma. Brackets are the standard ones.
-/

namespace SymbolicAlgebra.Formula

open Brackets (standard)

theorem char_beq (c d : Char) : (Text.CodePoint.char c == .char d) = (c == d) := by
  rw [Bool.eq_iff_iff, beq_iff_eq, beq_iff_eq, Text.CodePoint.char.injEq]

theorem standard_hasChar (c : Char) : standard.hasChar c = (c == '(' || c == ')') := by
  rw [Brackets.hasChar, standard, List.contains_cons, List.contains_cons, char_beq, char_beq]
  simp

theorem standard_place? (c : Char) :
    standard.place? [c] = if c = '(' then some 0 else if c = ')' then some 1 else none := by
  simp only [Brackets.place?, standard, Text.CodePoint.ofChars, List.map_cons, List.map_nil,
    Brackets.find?, List.isPrefixOf, char_beq, Bool.and_true, List.isEmpty_cons]
  split <;> simp_all

theorem standard_opens (c : Char) : standard.opens [c] = (c == '(') := by
  rw [Brackets.opens, standard_place?]
  split
  · next h => simp [h]
  · next h =>
    split
    · next h' => simp [h']
    · simp [h]

theorem standard_closes (c : Char) : standard.closes [c] = (c == ')') := by
  rw [Brackets.closes, standard_place?]
  split
  · next h => simp [h]
  · next h =>
    split
    · next h' => simp [h']
    · next h' => simp [h']

/-- A character that ends an operand: an operator, a separator or a bracket. -/
def isMark (c : Char) : Bool := operatorChars.contains c || c == '(' || c == ')'

theorem isMark_iff {c : Char} : isMark c = true ↔ c ∈ operatorChars ∨ c = '(' ∨ c = ')' := by
  simp [isMark, or_assoc]

theorem not_isMark_iff {c : Char} :
    isMark c = false ↔ c ∉ operatorChars ∧ c ≠ '(' ∧ c ≠ ')' := by
  simp [isMark, and_assoc]

theorem eq_false_of_isMark {p : Char → Bool}
    (h : (operatorChars ++ ['(', ')']).all (fun c => !p c) = true) {c : Char}
    (hc : isMark c = true) : p c = false := by
  have hp := List.all_eq_true.mp h c (by simpa using isMark_iff.mp hc)
  simpa using hp

theorem isOperandChar_of_isMark {c : Char} (h : isMark c = true) : isOperandChar c = false :=
  eq_false_of_isMark (p := isOperandChar) (by decide) h

theorem isDigit_of_isMark {c : Char} (h : isMark c = true) : Text.isDigit c = false :=
  eq_false_of_isMark (p := Text.isDigit) (by decide) h

theorem isAlphanumeric_of_isMark {c : Char} (h : isMark c = true) :
    Text.isAlphanumeric c = false :=
  eq_false_of_isMark (p := Text.isAlphanumeric) (by decide) h

theorem isLetter_of_isMark {c : Char} (h : isMark c = true) : Text.isLetter c = false :=
  eq_false_of_isMark (p := Text.isLetter) (by decide) h

theorem not_isMark_of_isOperandChar {c : Char} (h : isOperandChar c = true) :
    isMark c = false := by
  by_contra hc
  simp [isOperandChar_of_isMark (by simpa using hc)] at h

/-- A character goes on with the operand of the character before it. -/
def Continues (l c : Char) : Prop :=
  isMark c = false ∧ (Text.isLetter c = true → Text.isDigit l = false)

namespace Scan

/-- A scan with the given complete units, a unit under way and the character before. -/
def under (us : List (List Char)) (u : List Char) (l : Char) : Scan := ⟨us.reverse, u.reverse, some l⟩

@[simp] theorem last_under (us : List (List Char)) (u : List Char) (l : Char) :
    (under us u l).last = some l := rfl

/-- The scan begins a new unit with the character, after the given units. -/
def Ready (s : Scan) (c : Char) (us : List (List Char)) : Prop :=
  s.flush standard c = ⟨us.reverse, [], s.last⟩

/-- The scan begins a new unit with the character, and a minus is taken for a sign. -/
def Awaits (s : Scan) (c : Char) (us : List (List Char)) : Prop :=
  s.Ready c us ∧ (c = '-' → s.last.isSome = true ∧ s.takesSign standard = true)

variable {us : List (List Char)} {u : List Char} {l c m : Char}

theorem takesSign_under :
    (under us u l).takesSign standard = true ↔ l ∈ operatorChars ∨ l = '(' := by
  simp [takesSign, under, standard_opens]

theorem step_of_ready {s : Scan} (h : s.Ready c us)
    (hc : c = '-' → s.takesSign standard = false) : s.step standard c = under us [c] c := by
  unfold step
  rw [show s.flush standard c = _ from h]
  by_cases hminus : c = '-'
  · simp [hminus, hc hminus, under]
  · simp [hminus, under]

theorem step_sign {s : Scan} (h : s.Awaits '-' us) : s.step standard '-' = under us ['~'] '-' := by
  obtain ⟨hlast, hsign⟩ := h.2 rfl
  obtain ⟨l, hl⟩ := Option.isSome_iff_exists.mp hlast
  unfold step
  rw [show s.flush standard '-' = _ from h.1]
  simp [hsign, hl, under, Operator.negation]

theorem ready_under (hu : u ≠ []) (hbreaks : (under us u l).breaks standard c = true) :
    (under us u l).Ready c
      (us ++ u :: (((under us u l).marker? standard c).map ([·])).toList) := by
  have hempty : (under us u l).current.isEmpty = false := by simpa [under] using hu
  simp only [Ready, flush, hbreaks, hempty]
  cases (under us u l).marker? standard c with
  | none => simp [under]
  | some m => simp [under]

/-- After an operator or an opening bracket, an operand, a bracket or a sign begins a new unit. -/
theorem awaits_operand (us : List (List Char)) (hl : l ∈ operatorChars ∨ l = '(')
    (hm : Text.isDigit m = false) (hc : isOperandChar c = true ∨ c = '(' ∨ c = '-') :
    (under us [m] l).Awaits c (us ++ [[m]]) := by
  have hmark : isMark l = true := isMark_iff.mpr (hl.imp_right .inl)
  have hbreaks : (under us [m] l).breaks standard c = true := by
    have hafter : (under us [m] l).afterOperator standard = true := by
      rcases hl with h | h <;> simp [afterOperator, under, standard_hasChar, h]
    rcases hc with h | rfl | rfl
    · simp [breaks, hafter, h]
    · simp [breaks, standard_hasChar]
    · simp [breaks, operatorChars]
  have hmarker : (under us [m] l).marker? standard c = none := by
    have hclosing : l ≠ ')' := by
      rintro rfl
      simp [operatorChars] at hl
    have hletter : (under us [m] l).letterAfterDigit c = false := by
      simp [letterAfterDigit, under, hm]
    simp [marker?, hletter, standard_closes, hclosing, isAlphanumeric_of_isMark hmark]
  have hready := ready_under (by simp) hbreaks
  rw [hmarker] at hready
  exact ⟨hready, fun _ => ⟨rfl, takesSign_under.mpr hl⟩⟩

theorem ready_mark (hu : u ≠ []) (hc : c ∈ operatorChars ∨ c = ')') :
    (under us u l).Ready c (us ++ [u]) := by
  have hmark : isMark c = true := isMark_iff.mpr (hc.imp_right .inr)
  have hbreaks : (under us u l).breaks standard c = true := by
    rcases hc with h | h <;> simp [breaks, standard_hasChar, h]
  have hopens : c ≠ '(' := by
    rintro rfl
    simp [operatorChars] at hc
  have hmarker : (under us u l).marker? standard c = none := by
    simp [marker?, standard_opens, hopens, isOperandChar_of_isMark hmark, letterAfterDigit,
      isLetter_of_isMark hmark]
  have hready := ready_under hu hbreaks
  rwa [hmarker] at hready

/-- A letter right after a digit and an opening bracket right after a letter or a digit begin a new
unit with a marker before it. -/
theorem awaits_juxtaposed (us : List (List Char)) (hu : u.getLast? = some l)
    (hc : Text.isLetter c = true ∧ Text.isDigit l = true ∨
      c = '(' ∧ Text.isAlphanumeric l = true) :
    (under us u l).Awaits c (us ++ [u, ['•']]) := by
  have hne : u ≠ [] := by
    rintro rfl
    simp at hu
  have hhead : u.reverse.head? = some l := by rw [List.head?_reverse, hu]
  have hclosing : l ≠ ')' := by
    rintro rfl
    revert hc
    simp [show Text.isDigit ')' = false by decide, show Text.isAlphanumeric ')' = false by decide]
  have hbreaks : (under us u l).breaks standard c = true := by
    rcases hc with ⟨hc, hl⟩ | ⟨rfl, -⟩
    · simp [breaks, letterAfterDigit, under, hhead, hc, hl]
    · simp [breaks, standard_hasChar]
  have hmarker : (under us u l).marker? standard c = some '•' := by
    rcases hc with ⟨hc, hd⟩ | ⟨rfl, ha⟩
    · simp [marker?, under, standard_closes, hclosing, letterAfterDigit, hhead, hc, hd,
        Operator.juxtaposition]
    · simp [marker?, under, standard_closes, standard_opens, hclosing, ha, Operator.juxtaposition]
  have hminus : c ≠ '-' := by
    rintro rfl
    rcases hc with ⟨hc, -⟩ | ⟨hc, -⟩
    · revert hc
      decide
    · cases hc
  have hready := ready_under hne hbreaks
  rw [hmarker] at hready
  exact ⟨hready, fun h => absurd h hminus⟩

theorem step_operand (hl : isMark l = false) (hc : Continues l c) :
    (under us (u ++ [l]) l).step standard c = under us (u ++ [l, c]) c := by
  have hl' := not_isMark_iff.mp hl
  have hc' := not_isMark_iff.mp hc.1
  have hminus : c ≠ '-' := by
    rintro rfl
    simp [operatorChars] at hc'
  have hbreaks : (under us (u ++ [l]) l).breaks standard c = false := by
    have hafter : (under us (u ++ [l]) l).afterOperator standard = false := by
      simp [afterOperator, under, standard_hasChar, hl']
    have hdigit : (under us (u ++ [l]) l).letterAfterDigit c = false := by
      cases h : Text.isLetter c with
      | false => simp [letterAfterDigit, h]
      | true => simp [letterAfterDigit, under, hc.2 h]
    simp [breaks, standard_hasChar, hc', hdigit, hafter]
  have hflush : (under us (u ++ [l]) l).flush standard c = under us (u ++ [l]) l := by
    simp [flush, hbreaks]
  unfold step
  rw [hflush]
  simp [hminus, under]

theorem foldl_operand (us : List (List Char)) (u v : List Char) {l : Char} (hl : isMark l = false)
    (hv : (l :: v).IsChain Continues) :
    v.foldl (step standard) (under us (u ++ [l]) l) =
      under us (u ++ l :: v) ((l :: v).getLast (by simp)) := by
  induction v generalizing u l with
  | nil => rfl
  | cons c v ih =>
    obtain ⟨hc, hv⟩ := List.isChain_cons_cons.mp hv
    have hih := ih (u ++ [l]) hc.1 hv
    rw [List.foldl_cons, step_operand hl hc, List.getLast_cons (by simp)]
    simpa using hih

end Scan

theorem not_isMark_getLast {l : Char} {v : List Char} (hl : isMark l = false)
    (hv : (l :: v).IsChain Continues) : isMark ((l :: v).getLast (by simp)) = false := by
  induction v generalizing l with
  | nil => exact hl
  | cons c v ih =>
    obtain ⟨hc, hv⟩ := List.isChain_cons_cons.mp hv
    rw [List.getLast_cons (by simp)]
    exact ih hc.1 hv

/-- Wherever a new unit begins, the text is cut into the given units, the last of them under way. -/
structure Cut (w : List Char) (first last : Char) (us : List (List Char)) (u : List Char) :
    Prop where
  head : w.head? = some first
  getLast : w.getLast? = some last
  begins : isOperandChar first = true ∨ first = '(' ∨ first = '-'
  ends : last = '!' ∨ last ∉ operatorChars ∧ last ≠ '('
  underWay : u.getLast? = some last
  scan : ∀ {s : Scan} {before : List (List Char)}, s.Awaits first before →
    w.foldl (Scan.step standard) s = Scan.under (before ++ us) u last

namespace Cut

variable {w w' : List Char} {first first' last last' : Char} {us us' : List (List Char)}
  {u u' : List Char}

theorem ne_nil (h : Cut w first last us u) : w ≠ [] := by
  rintro rfl
  simpa using h.head

theorem underWay_ne_nil (h : Cut w first last us u) : u ≠ [] := by
  rintro rfl
  simpa using h.underWay

/-- A number or a name is a unit of its own. -/
theorem operand {c : Char} {v : List Char} (hc : isOperandChar c = true)
    (hv : (c :: v).IsChain Continues) :
    Cut (c :: v) c ((c :: v).getLast (by simp)) [] (c :: v) := by
  have hmark := not_isMark_of_isOperandChar hc
  have hlast := not_isMark_iff.mp (not_isMark_getLast hmark hv)
  have hminus : c ≠ '-' := by
    rintro rfl
    revert hmark
    decide
  refine ⟨rfl, List.getLast?_eq_some_getLast _, .inl hc, .inr ⟨hlast.1, hlast.2.1⟩,
    List.getLast?_eq_some_getLast _, fun {s before} hs => ?_⟩
  rw [List.foldl_cons, Scan.step_of_ready hs.1 fun h => absurd h hminus, List.append_nil]
  exact Scan.foldl_operand before [] v hmark hv

theorem last_takes_no_sign (h : Cut w first last us u) (hlast : last ≠ '!')
    (before : List (List Char)) : (Scan.under before u last).takesSign standard = false := by
  obtain rfl | hends := h.ends
  · exact absurd rfl hlast
  · rw [Bool.eq_false_iff, Ne, Scan.takesSign_under, not_or]
    exact hends

/-- After a part an operator or a closing bracket begins a new unit. -/
theorem step_mark (h : Cut w first last us u) {c : Char} (hc : c ∈ operatorChars ∨ c = ')')
    (hminus : c = '-' → last ≠ '!') (before : List (List Char)) :
    (Scan.under (before ++ us) u last).step standard c =
      Scan.under (before ++ (us ++ [u])) [c] c := by
  rw [Scan.step_of_ready (Scan.ready_mark h.underWay_ne_nil hc)
    fun h' => h.last_takes_no_sign (hminus h') _, List.append_assoc]

theorem bracketed (h : Cut w first last us u) :
    Cut ('(' :: w ++ [')']) '(' ')' (['('] :: us ++ [u]) [')'] := by
  refine ⟨rfl, List.getLast?_concat, .inr (.inl rfl), .inr (by decide), rfl,
    fun {s before} hs => ?_⟩
  have hopen : s.step standard '(' = Scan.under before ['('] '(' :=
    Scan.step_of_ready hs.1 (by simp)
  have hawaits := Scan.awaits_operand before (m := '(') (.inr rfl) (by decide) h.begins
  rw [List.cons_append, List.foldl_cons, List.foldl_append, hopen, h.scan hawaits, List.foldl_cons,
    List.foldl_nil, h.step_mark (.inr rfl) (by simp)]
  simp

/-- A part with its sign, where an operand is expected. -/
theorem signed (h : Cut w first last us u) :
    Cut ('-' :: w) '-' last (['~'] :: us) u := by
  refine ⟨rfl, ?_, .inr (.inr rfl), h.ends, h.underWay, fun {s before} hs => ?_⟩
  · rw [List.getLast?_cons_of_ne_nil h.ne_nil, h.getLast]
  have hawaits := Scan.awaits_operand before (l := '-') (m := '~') (.inl (by decide)) (by decide)
    h.begins
  rw [List.foldl_cons, Scan.step_sign hs, h.scan hawaits]
  simp

theorem postfixed (h : Cut w first last us u) : Cut (w ++ ['!']) first '!' (us ++ [u]) ['!'] := by
  refine ⟨?_, List.getLast?_concat, h.begins, .inl rfl, rfl, fun {s before} hs => ?_⟩
  · rw [List.head?_append_of_ne_nil _ h.ne_nil, h.head]
  rw [List.foldl_append, h.scan hs, List.foldl_cons, List.foldl_nil,
    h.step_mark (.inl (by decide)) (by simp)]

/-- Two parts with an operator or a separator between them. -/
theorem joined (h : Cut w first last us u) (h' : Cut w' first' last' us' u') {c : Char}
    (hc : c ∈ operatorChars) (hminus : c = '-' → last ≠ '!') :
    Cut (w ++ c :: w') first last' (us ++ u :: [c] :: us') u' := by
  have hdigit : Text.isDigit c = false := isDigit_of_isMark (isMark_iff.mpr (.inl hc))
  refine ⟨?_, ?_, h.begins, h'.ends, h'.underWay, fun {s before} hs => ?_⟩
  · rw [List.head?_append_of_ne_nil _ h.ne_nil, h.head]
  · rw [List.getLast?_append_of_ne_nil _ (by simp), List.getLast?_cons_of_ne_nil h'.ne_nil, h'.getLast]
  have hawaits := Scan.awaits_operand (before ++ (us ++ [u])) (.inl hc) hdigit h'.begins
  rw [List.foldl_append, h.scan hs, List.foldl_cons, h.step_mark (.inl hc) hminus, h'.scan hawaits]
  simp

/-- Two parts side by side, the second of which begins with a letter or a bracket. -/
theorem juxtaposed (h : Cut w first last us u) (h' : Cut w' first' last' us' u')
    (hfirst : Text.isLetter first' = true ∧ Text.isDigit last = true ∨
      first' = '(' ∧ Text.isAlphanumeric last = true) :
    Cut (w ++ w') first last' (us ++ u :: ['•'] :: us') u' := by
  refine ⟨?_, ?_, h.begins, h'.ends, h'.underWay, fun {s before} hs => ?_⟩
  · rw [List.head?_append_of_ne_nil _ h.ne_nil, h.head]
  · rw [List.getLast?_append_of_ne_nil _ h'.ne_nil, h'.getLast]
  have hawaits := Scan.awaits_juxtaposed (before ++ us) h.underWay hfirst
  rw [List.foldl_append, h.scan hs, h'.scan hawaits]
  simp

/-- A part that is the whole text. -/
theorem unitsOfCondensed (h : Cut w first last us u) (hfirst : first ≠ '-') :
    unitsOfCondensed standard w = us ++ [u] := by
  have hw : w.isEmpty = false := by simpa using h.ne_nil
  have hstart : Scan.start.Awaits first [] :=
    ⟨by simp [Scan.Ready, Scan.flush, Scan.start], fun h => absurd h hfirst⟩
  simp [Formula.unitsOfCondensed, hw, h.scan hstart, Scan.finish, Scan.under]

/-- A part that is the whole text but for a sign. -/
theorem unitsOfCondensed_signed (h : Cut w first last us u) :
    Formula.unitsOfCondensed standard ('-' :: w) = ['-', '1'] :: ['•'] :: us ++ [u] := by
  have hawaits := Scan.awaits_operand [['-', '1']] (l := '-') (m := '•')
    (.inl (by decide)) (by decide) h.begins
  have hrun : ('-' :: w).foldl (Scan.step standard) Scan.start =
      Scan.under ([['-', '1']] ++ [['•']] ++ us) u last := h.scan hawaits
  rw [Formula.unitsOfCondensed, hrun]
  simp [Scan.finish, Scan.under]

end Cut

end SymbolicAlgebra.Formula
