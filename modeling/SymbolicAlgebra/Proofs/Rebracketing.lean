import SymbolicAlgebra.Proofs.BracketNesting
import SymbolicAlgebra.Proofs.ReadingFaults

/-!
# Other brackets for the round ones

A text is read with another pair of brackets as it is read with round brackets once these stand in
its place: the outcome is the same tree or the same fault, and only a unit that is cited is written
with the other brackets. Each stage of reading commutes with the replacement, because no stage looks
at a bracket otherwise than for its place among the brackets. The text must be free of the other
brackets, which are plain characters when round brackets are read.
-/

namespace SymbolicAlgebra

open Outcome Formula
open Brackets (standard)

/-- A character with the given brackets in place of the round ones. -/
def rebracket (o c d : Char) : Char := if d = '(' then o else if d = ')' then c else d

def rebracketText (o c : Char) (text : String) : String := text.map (rebracket o c)

/-- Two characters that can serve as the only brackets. -/
structure IsBracketPair (o c : Char) : Prop where
  ne : o ≠ c
  opening : CanBracket o
  closing : CanBracket c

def Brackets.pair (o c : Char) : Brackets := [.char o, .char c]

def IsFree (o c : Char) (w : List Char) : Prop := ∀ d ∈ w, d ≠ o ∧ d ≠ c

theorem standard_isProper : standard.IsProper := by
  intro d hd
  rw [standard_hasChar, Bool.or_eq_true, beq_iff_eq, beq_iff_eq] at hd
  rcases hd with rfl | rfl
  · decide
  · decide

variable {o c : Char}

/-- A test that no bracket passes does not see which brackets are used. -/
theorem IsBracketPair.apply_rebracket (h : IsBracketPair o c) {p : Char → Bool}
    (hp : ∀ d, CanBracket d → p d = false) (d : Char) : p (rebracket o c d) = p d := by
  by_cases hopening : d = '('
  · rw [rebracket, if_pos hopening, hp o h.opening, hopening, hp '(' (by decide)]
  by_cases hclosing : d = ')'
  · rw [rebracket, if_neg hopening, if_pos hclosing, hp c h.closing, hclosing, hp ')' (by decide)]
  · rw [rebracket, if_neg hopening, if_neg hclosing]

theorem rebracket_of_not_hasChar {d : Char} (hd : standard.hasChar d = false) :
    rebracket o c d = d := by
  rw [standard_hasChar, Bool.or_eq_false_iff, beq_eq_false_iff_ne, beq_eq_false_iff_ne] at hd
  rw [rebracket, if_neg hd.1, if_neg hd.2]

theorem map_rebracket_of_not_hasChar {w : List Char} (hw : ∀ d ∈ w, standard.hasChar d = false) :
    w.map (rebracket o c) = w :=
  (List.map_congr_left fun d hd => rebracket_of_not_hasChar (hw d hd)).trans (List.map_id' w)

theorem toList_rebracketText (text : String) :
    (rebracketText o c text).toList = text.toList.map (rebracket o c) := String.toList_map

theorem rebracketText_ofList (w : List Char) :
    rebracketText o c (String.ofList w) = String.ofList (w.map (rebracket o c)) := by
  rw [← String.toList_inj, toList_rebracketText, String.toList_ofList, String.toList_ofList]

theorem IsBracketPair.rebracket_eq_iff (h : IsBracketPair o c) {e : Char} (he : ¬ CanBracket e)
    (d : Char) : rebracket o c d = e ↔ d = e := by
  have hother : ∀ d, CanBracket d → (d == e) = false := by
    intro d hd
    rw [beq_eq_false_iff_ne]
    rintro rfl
    exact he hd
  rw [← beq_iff_eq, h.apply_rebracket hother, beq_iff_eq]

namespace Brackets

theorem isPrefixOf_map {f : Char → Char} {u w : List Char}
    (hf : ∀ d ∈ u, ∀ e ∈ w, f d = f e → d = e) :
    (Text.CodePoint.ofChars (u.map f)).isPrefixOf (Text.CodePoint.ofChars (w.map f)) =
      (Text.CodePoint.ofChars u).isPrefixOf (Text.CodePoint.ofChars w) := by
  induction u generalizing w with
  | nil => rfl
  | cons d u ih =>
    cases w with
    | nil => rfl
    | cons e w =>
      have hhead : (f d == f e) = (d == e) := by
        rw [Bool.eq_iff_iff, beq_iff_eq, beq_iff_eq]
        exact ⟨hf d List.mem_cons_self e List.mem_cons_self, congrArg f⟩
      have htail := ih fun d hd e he =>
        hf d (List.mem_cons_of_mem _ hd) e (List.mem_cons_of_mem _ he)
      simp only [Text.CodePoint.ofChars, List.map_cons, List.isPrefixOf_cons_cons, char_beq,
        hhead] at htail ⊢
      rw [htail]

theorem find?_map {f : Char → Char} {u w : List Char} (hf : ∀ d ∈ u, ∀ e ∈ w, f d = f e → d = e) :
    find? (Text.CodePoint.ofChars (u.map f)) (Text.CodePoint.ofChars (w.map f)) =
      find? (Text.CodePoint.ofChars u) (Text.CodePoint.ofChars w) := by
  induction w with
  | nil => simp [find?, Text.CodePoint.ofChars]
  | cons e w ih =>
    have hprefix := isPrefixOf_map hf
    have htail := ih fun d hd e he => hf d hd e (List.mem_cons_of_mem _ he)
    simp only [Text.CodePoint.ofChars, List.map_cons] at hprefix htail ⊢
    rw [find?, find?, hprefix, htail]

end Brackets

namespace IsBracketPair

variable {u : List Char} {d : Char}

theorem eq_of_rebracket_eq (h : IsBracketPair o c) (hd : d ≠ o ∧ d ≠ c) {e : Char}
    (he : e ∈ ['(', ')']) (heq : rebracket o c d = rebracket o c e) : d = e := by
  have hrebracket : rebracket o c '(' = o ∧ rebracket o c ')' = c := ⟨rfl, rfl⟩
  have hne := h.ne
  simp only [List.mem_cons, List.not_mem_nil, or_false] at he
  rcases he with rfl | rfl
  · rw [hrebracket.1, rebracket] at heq
    split_ifs at heq with hopening hclosing
    · exact hopening
    · exact absurd heq.symm hne
    · exact absurd heq hd.1
  · rw [hrebracket.2, rebracket] at heq
    split_ifs at heq with hopening hclosing
    · exact absurd heq hne
    · exact hclosing
    · exact absurd heq hd.2

theorem place?_map (h : IsBracketPair o c) (hu : IsFree o c u) :
    (Brackets.pair o c).place? (u.map (rebracket o c)) = standard.place? u :=
  Brackets.find?_map (w := ['(', ')']) fun d hd _ he => h.eq_of_rebracket_eq (hu d hd) he

theorem opens_map (h : IsBracketPair o c) (hu : IsFree o c u) :
    (Brackets.pair o c).opens (u.map (rebracket o c)) = standard.opens u := by
  rw [Brackets.opens, h.place?_map hu, Brackets.opens]

theorem closes_map (h : IsBracketPair o c) (hu : IsFree o c u) :
    (Brackets.pair o c).closes (u.map (rebracket o c)) = standard.closes u := by
  rw [Brackets.closes, h.place?_map hu, Brackets.closes]

theorem hasChar_rebracket (h : IsBracketPair o c) (hd : d ≠ o ∧ d ≠ c) :
    (Brackets.pair o c).hasChar (rebracket o c d) = standard.hasChar d := by
  have hmem : ∀ e ∈ ['(', ')'], (rebracket o c d == rebracket o c e) = (d == e) := by
    intro e he
    rw [Bool.eq_iff_iff, beq_iff_eq, beq_iff_eq]
    exact ⟨h.eq_of_rebracket_eq hd he, congrArg _⟩
  have hopening := hmem '(' (by decide)
  have hclosing := hmem ')' (by decide)
  rw [standard_hasChar, Brackets.hasChar, Brackets.pair, List.contains_cons, List.contains_cons,
    char_beq, char_beq, ← hopening, ← hclosing]
  simp [rebracket]

end IsBracketPair

namespace Formula

def Scan.map (f : Char → Char) (s : Scan) : Scan :=
  ⟨s.units.map (List.map f), s.current.map f, s.last.map f⟩

variable {s : Scan} {d : Char}

theorem mergeSigns_map {f : Char → Char} (hplus : f '+' = '+') (hminus : ∀ d, f d = '-' ↔ d = '-')
    (w : List Char) : mergeSigns (w.map f) = (mergeSigns w).map f := by
  fun_induction mergeSigns w with
  | case1 w ih => simp [(hminus '-').mpr rfl, mergeSigns, ih, hplus]
  | case2 d w hd ih =>
    rw [List.map_cons, mergeSigns, ih, List.map_cons]
    -- Two minuses in a row come from two minuses in a row.
    intro v hfirst hsecond
    cases w with
    | nil => cases hsecond
    | cons e w =>
      obtain ⟨he, -⟩ := List.cons.inj hsecond
      exact hd w ((hminus d).mp hfirst) (by rw [(hminus e).mp he])
  | case3 => rfl

theorem condensed_map (h : IsBracketPair o c) (w : List Char) :
    condensed (w.map (rebracket o c)) = (condensed w).map (rebracket o c) := by
  have hminus := h.rebracket_eq_iff (e := '-') fun h => h.ne_minus rfl
  have hblank : (fun d => !Text.isBlank d) ∘ rebracket o c = fun d => !Text.isBlank d := by
    funext d
    rw [Function.comp_apply, h.apply_rebracket fun d hd => hd.not_isBlank]
  rw [condensed, condensed, Text.withoutBlanks, Text.withoutBlanks, List.filter_map, hblank]
  exact mergeSigns_map rfl hminus _

theorem letterAfterDigit_map (h : IsBracketPair o c) (s : Scan) (d : Char) :
    (s.map (rebracket o c)).letterAfterDigit (rebracket o c d) = s.letterAfterDigit d := by
  rw [Scan.letterAfterDigit, Scan.letterAfterDigit, h.apply_rebracket fun d hd => hd.not_isLetter]
  simp only [Scan.map]
  cases s.current with
  | nil => rfl
  | cons e w => simp [h.apply_rebracket fun d hd => hd.not_isDigit]

/-- Where the last character is free, all tests on it have the same outcome. -/
theorem last_any_map {p q : Char → Bool} (hs : IsFree o c s.last.toList)
    (hpq : ∀ d, d ≠ o ∧ d ≠ c → q (rebracket o c d) = p d) :
    (s.map (rebracket o c)).last.any q = s.last.any p := by
  obtain ⟨units, current, last⟩ := s
  cases last with
  | none => rfl
  | some l => exact hpq l (hs l (by simp))

theorem breaks_map (h : IsBracketPair o c) (hs : IsFree o c s.last.toList) (hd : d ≠ o ∧ d ≠ c) :
    (s.map (rebracket o c)).breaks (Brackets.pair o c) (rebracket o c d) =
      s.breaks standard d := by
  have hoperators := h.apply_rebracket fun d hd => hd.not_contains_operatorChars
  have hafter : (s.map (rebracket o c)).afterOperator (Brackets.pair o c) =
      s.afterOperator standard :=
    last_any_map hs fun e he => by rw [hoperators, h.hasChar_rebracket he]
  rw [Scan.breaks, Scan.breaks, h.hasChar_rebracket hd, hoperators, letterAfterDigit_map h, hafter,
    h.apply_rebracket fun d hd => hd.not_isOperandChar]

theorem marker?_map (h : IsBracketPair o c) (hs : IsFree o c s.last.toList) (hd : d ≠ o ∧ d ≠ c) :
    (s.map (rebracket o c)).marker? (Brackets.pair o c) (rebracket o c d) =
      (s.marker? standard d).map (rebracket o c) := by
  have hsingle : ∀ e, e ≠ o ∧ e ≠ c → IsFree o c [e] := by
    rintro e he _ hmem
    rwa [List.mem_singleton.mp hmem]
  have hopens : (Brackets.pair o c).opens [rebracket o c d] = standard.opens [d] :=
    h.opens_map (hsingle d hd)
  have hcloses : (s.map (rebracket o c)).last.any (fun l => (Brackets.pair o c).closes [l]) =
      s.last.any fun l => standard.closes [l] :=
    last_any_map hs fun e he => h.closes_map (hsingle e he)
  have halphanumeric : (s.map (rebracket o c)).last.any Text.isAlphanumeric =
      s.last.any Text.isAlphanumeric :=
    last_any_map hs fun e _ => h.apply_rebracket (fun d hd => hd.not_isAlphanumeric) e
  simp only [Scan.marker?, hopens, hcloses, halphanumeric, letterAfterDigit_map h,
    h.apply_rebracket fun d hd => hd.not_isOperandChar]
  split_ifs <;> rfl

theorem takesSign_map (h : IsBracketPair o c) (hs : IsFree o c s.last.toList) :
    (s.map (rebracket o c)).takesSign (Brackets.pair o c) = s.takesSign standard := by
  obtain ⟨units, current, last⟩ := s
  cases last with
  | none => rfl
  | some l =>
    have hopens : (Brackets.pair o c).opens [rebracket o c l] = standard.opens [l] := h.opens_map hs
    have hoperator := h.apply_rebracket (fun d hd => hd.not_contains_operatorChars) l
    change (operatorChars.contains (rebracket o c l) || _) = (operatorChars.contains l || _)
    rw [hoperator, hopens]

theorem flush_map (h : IsBracketPair o c) (hs : IsFree o c s.last.toList) (hd : d ≠ o ∧ d ≠ c) :
    (s.map (rebracket o c)).flush (Brackets.pair o c) (rebracket o c d) =
      (s.flush standard d).map (rebracket o c) := by
  rw [Scan.flush, Scan.flush, breaks_map h hs hd, marker?_map h hs hd]
  have hempty : (s.map (rebracket o c)).current.isEmpty = s.current.isEmpty := by simp [Scan.map]
  rw [hempty]
  by_cases hflush : (s.breaks standard d && !s.current.isEmpty) = true
  · rw [if_pos hflush, if_pos hflush]
    cases s.marker? standard d <;> simp [Scan.map]
  · rw [if_neg hflush, if_neg hflush]

theorem step_map (h : IsBracketPair o c) (hs : IsFree o c s.last.toList) (hd : d ≠ o ∧ d ≠ c) :
    (s.map (rebracket o c)).step (Brackets.pair o c) (rebracket o c d) =
      (s.step standard d).map (rebracket o c) := by
  have hminus : rebracket o c d = '-' ↔ d = '-' := h.rebracket_eq_iff (fun h => h.ne_minus rfl) d
  rw [Scan.step, Scan.step, flush_map h hs hd, takesSign_map h hs]
  by_cases hsign : (d = '-' && s.takesSign standard) = true
  · simp only [hminus, hsign, if_true]
    obtain ⟨units, current, last⟩ := s
    cases last with
    | none => rfl
    | some l => rfl
  · simp only [hminus, hsign, if_false, Bool.false_eq_true]
    rfl

theorem foldl_map (h : IsBracketPair o c) {w : List Char} (hw : IsFree o c w)
    (hs : IsFree o c s.last.toList) :
    (w.map (rebracket o c)).foldl (Scan.step (Brackets.pair o c)) (s.map (rebracket o c)) =
      (w.foldl (Scan.step standard) s).map (rebracket o c) := by
  induction w generalizing s with
  | nil => rfl
  | cons d w ih =>
    obtain ⟨hd, hw⟩ := List.forall_mem_cons.mp hw
    rw [List.map_cons, List.foldl_cons, List.foldl_cons, step_map h hs hd]
    apply ih hw
    simpa [Scan.last_step, IsFree] using hd

theorem unitsOfCondensed_map (h : IsBracketPair o c) {w : List Char} (hw : IsFree o c w) :
    unitsOfCondensed (Brackets.pair o c) (w.map (rebracket o c)) =
      (unitsOfCondensed standard w).map (List.map (rebracket o c)) := by
  have hrun := foldl_map (s := Scan.start) h hw (by simp [IsFree, Scan.start])
  have hfinish : ∀ s : Scan, (s.map (rebracket o c)).finish =
      s.finish.map (List.map (rebracket o c)) := by
    intro s
    simp [Scan.finish, Scan.map]
  cases w with
  | nil => rfl
  | cons d w =>
    change (((d :: w).map (rebracket o c)).foldl (Scan.step (Brackets.pair o c))
      (Scan.start.map (rebracket o c))).finish = _
    rw [hrun, hfinish]
    rfl

theorem unitsOfCondensed_isFree (h : IsBracketPair o c) (b : Brackets) {w : List Char}
    (hw : IsFree o c w) : ∀ u ∈ unitsOfCondensed b w, IsFree o c u := by
  have hmem : ∀ e, CanBracket e → e ∉ w → e ∉ (unitsOfCondensed b w).flatten := by
    intro e he hw
    have hadded : ∀ m ∈ addedChars, (m == e) = false := by
      intro m hm
      rw [beq_eq_false_iff_ne]
      rintro rfl
      exact he.not_mem_addedChars hm
    intro hflatten
    have hfilter := List.mem_filter (p := (· == e)).mpr ⟨hflatten, beq_self_eq_true e⟩
    rw [filter_unitsOfCondensed hadded] at hfilter
    exact hw (List.mem_of_mem_filter hfilter)
  intro u hu d hd
  have hflatten : d ∈ (unitsOfCondensed b w).flatten := List.mem_flatten.mpr ⟨u, hu, hd⟩
  constructor
  · rintro rfl
    exact hmem d h.opening (fun hd => (hw d hd).1 rfl) hflatten
  · rintro rfl
    exact hmem d h.closing (fun hd => (hw d hd).2 rfl) hflatten

end Formula

def Lexeme.rebracket (o c : Char) : Lexeme → Lexeme
  | opening text => opening (rebracketText o c text)
  | closing text => closing (rebracketText o c text)
  | unknown text => unknown (rebracketText o c text)
  | l => l

namespace Lexeme

@[simp] theorem isOpening_rebracket (l : Lexeme) : (l.rebracket o c).isOpening = l.isOpening := by
  cases l <;> rfl

@[simp] theorem isOperator_rebracket (l : Lexeme) :
    (l.rebracket o c).isOperator = l.isOperator := by
  cases l <;> rfl

@[simp] theorem yields_rebracket (incoming : Operator) (l : Lexeme) :
    yields incoming (l.rebracket o c) = yields incoming l := by
  cases l <;> rfl

theorem text_ofUnit (b : Brackets) (unit : String) (following : List String) :
    (ofUnit b unit following).text = unit := by
  rcases ofUnit_cases b unit following with ⟨o, h, hunit⟩ | ⟨h, hunit⟩ | ⟨h, -⟩ | ⟨h, -⟩ |
    ⟨value, h⟩ | ⟨f, h, hcalled⟩ | h
  case inl | inr.inl => rw [h, hunit, text]
  case inr.inr.inr.inr.inr.inl => rw [h, text, (calledFunction?_eq_some hcalled).1]
  all_goals rw [h, text]

theorem rebracket_eq_self {l : Lexeme} (h : rebracketText o c l.text = l.text) :
    l.rebracket o c = l := by
  cases l with
  | opening text => exact congrArg opening h
  | closing text => exact congrArg closing h
  | unknown text => exact congrArg unknown h
  | _ => rfl

section

variable {u : List Char} {us : List (List Char)}

theorem calledFunction?_map (h : IsBracketPair o c) (hus : ∀ u ∈ us, IsFree o c u) (unit : String) :
    ofUnit.calledFunction? (Brackets.pair o c) unit
        ((us.map String.ofList).map (rebracketText o c)) =
      ofUnit.calledFunction? standard unit (us.map String.ofList) := by
  have hmarker : ∀ u : List Char, rebracketText o c (String.ofList u) = Operator.juxtapose.symbol ↔
      String.ofList u = Operator.juxtapose.symbol := by
    intro u
    rw [← String.toList_inj, ← String.toList_inj, toList_rebracketText, String.toList_ofList]
    have hmarker := h.rebracket_eq_iff (e := Operator.juxtaposition) fun h => h.ne_juxtaposition rfl
    cases u with
    | nil => rfl
    | cons d u => simp [Operator.symbol, Operator.symbolChar, hmarker]
  cases us with
  | nil => rfl
  | cons marker us =>
    cases us with
    | nil => rfl
    | cons bracket rest =>
      have hopens := h.opens_map (hus bracket (by simp))
      simp only [List.map_cons, ofUnit.calledFunction?, hmarker, toList_rebracketText,
        String.toList_ofList, hopens]

theorem ofUnit_rebracket_of_not_hasChar (h : IsBracketPair o c) (hu : IsFree o c u)
    (hplain : ∀ d ∈ u, standard.hasChar d = false) (hus : ∀ u ∈ us, IsFree o c u) :
    ofUnit (Brackets.pair o c) (rebracketText o c (String.ofList u))
        ((us.map String.ofList).map (rebracketText o c)) =
      (ofUnit standard (String.ofList u) (us.map String.ofList)).rebracket o c := by
  have hmap := map_rebracket_of_not_hasChar (o := o) (c := c) hplain
  have htext : rebracketText o c (String.ofList u) = String.ofList u := by
    rw [rebracketText_ofList, hmap]
  have hopens := h.opens_map hu
  have hcloses := h.closes_map hu
  rw [hmap] at hopens hcloses
  rw [rebracket_eq_self (by rw [text_ofUnit, htext]), htext]
  unfold ofUnit
  simp only [String.toList_ofList, hopens, hcloses, calledFunction?_map h hus]

theorem ofUnit_rebracket (h : IsBracketPair o c) (hu : IsFree o c u) (hheaded : IsHeaded standard u)
    (hus : ∀ u ∈ us, IsFree o c u) :
    ofUnit (Brackets.pair o c) (rebracketText o c (String.ofList u))
        ((us.map String.ofList).map (rebracketText o c)) =
      (ofUnit standard (String.ofList u) (us.map String.ofList)).rebracket o c := by
  obtain ⟨d, v, rfl, hv⟩ := hheaded
  -- Only the first character of a unit can be a bracket; without one the unit stays as it is.
  by_cases hd : standard.hasChar d = true
  · have hbracket : CanBracket (SymbolicAlgebra.rebracket o c d) := by
      rw [standard_hasChar, Bool.or_eq_true, beq_iff_eq, beq_iff_eq] at hd
      rcases hd with rfl | rfl
      · exact h.opening
      · exact h.closing
    have hmap : (rebracketText o c (String.ofList (d :: v))).toList =
        (d :: v).map (SymbolicAlgebra.rebracket o c) := by
      rw [toList_rebracketText, String.toList_ofList]
    rw [ofUnit_of_canBracket hbracket (hmap.trans List.map_cons), hmap, h.opens_map hu,
      h.closes_map hu, ofUnit_of_canBracket (standard_isProper d hd) String.toList_ofList,
      String.toList_ofList]
    split_ifs <;> rfl
  · rw [Bool.not_eq_true] at hd
    exact ofUnit_rebracket_of_not_hasChar h hu (List.forall_mem_cons.mpr ⟨hd, hv⟩) hus

theorem ofUnits_rebracket (h : IsBracketPair o c) (hfree : ∀ u ∈ us, IsFree o c u)
    (hheaded : ∀ u ∈ us, IsHeaded standard u) :
    ofUnits (Brackets.pair o c) ((us.map String.ofList).map (rebracketText o c)) =
      (ofUnits standard (us.map String.ofList)).map (rebracket o c) := by
  induction us with
  | nil => rfl
  | cons u us ih =>
    obtain ⟨hu, hus⟩ := List.forall_mem_cons.mp hfree
    obtain ⟨hhead, hheads⟩ := List.forall_mem_cons.mp hheaded
    rw [List.map_cons, List.map_cons, ofUnits, ofUnit_rebracket h hu hhead hus, ih hus hheads,
      ofUnits, List.map_cons]

end

end Lexeme

def Fault.rebracket (o c : Char) : Fault → Fault
  | .misread (.missingOpening unit) => .misread (.missingOpening (rebracketText o c unit))
  | .misread (.missingClosing unit) => .misread (.missingClosing (rebracketText o c unit))
  | .misread (.unknownUnit unit) => .misread (.unknownUnit (rebracketText o c unit))
  | e => e

theorem Fault.rebracket_misread (cause : Misreading) :
    ∃ cause', (Fault.misread cause).rebracket o c = .misread cause' ∧
      cause'.summary = cause.summary ∧
      (cause'.unit? = cause.unit? ∨ cause'.unit? = cause.unit?.map (rebracketText o c)) := by
  cases cause with
  | missingOpening unit => exact ⟨_, rfl, rfl, .inr rfl⟩
  | missingClosing unit => exact ⟨_, rfl, rfl, .inr rfl⟩
  | unknownUnit unit => exact ⟨_, rfl, rfl, .inr rfl⟩
  | _ => exact ⟨_, rfl, rfl, .inl rfl⟩

def Outcome.replaced {ε α β : Type} (f : ε → ε) (g : α → β) : Except ε α → Except ε β
  | .error e => .error (f e)
  | .ok a => .ok (g a)

theorem Outcome.bind_replaced {ε α β γ δ : Type} {f : ε → ε} {g : α → β} {g' : γ → δ}
    {k : α → Except ε γ} {k' : β → Except ε δ} (h : ∀ a, k' (g a) = replaced f g' (k a))
    (x : Except ε α) : (replaced f g x >>= k') = replaced f g' (x >>= k) := by
  cases x with
  | error e => rfl
  | ok a => exact h a

namespace Lexeme

theorem takeWhile_rebracket {q : Lexeme → Bool} (hq : ∀ l, q (rebracket o c l) = q l)
    (stack : List Lexeme) :
    (stack.map (rebracket o c)).takeWhile q = (stack.takeWhile q).map (rebracket o c) := by
  rw [List.takeWhile_map, show q ∘ rebracket o c = q from funext hq]

theorem dropWhile_rebracket {q : Lexeme → Bool} (hq : ∀ l, q (rebracket o c l) = q l)
    (stack : List Lexeme) :
    (stack.map (rebracket o c)).dropWhile q = (stack.dropWhile q).map (rebracket o c) := by
  rw [List.dropWhile_map, show q ∘ rebracket o c = q from funext hq]

theorem unload_rebracket (stack output : List Lexeme) :
    unload (stack.map (rebracket o c)) (output.map (rebracket o c)) =
      replaced (Fault.rebracket o c) (List.map (rebracket o c)) (unload stack output) := by
  have hopening : isOpening ∘ rebracket o c = isOpening := funext isOpening_rebracket
  unfold unload
  rw [List.find?_map, hopening]
  cases hfind : stack.find? isOpening with
  | none => simp [replaced]
  | some bracket =>
    have hbracket := List.find?_some hfind
    cases bracket with
    | opening text => rfl
    | _ => cases hbracket

theorem close_rebracket (text : String) (stack output : List Lexeme) :
    close (rebracketText o c text) (stack.map (rebracket o c)) (output.map (rebracket o c)) =
      replaced (Fault.rebracket o c)
        (Prod.map (List.map (rebracket o c)) (List.map (rebracket o c)))
        (close text stack output) := by
  unfold close
  rw [takeWhile_rebracket (by simp), dropWhile_rebracket (by simp), ← List.map_reverse,
    ← List.map_append]
  cases stack.dropWhile (!·.isOpening) with
  | nil => rfl
  | cons bracket below =>
    cases below with
    | nil => rfl
    | cons l below => cases l <;> rfl

theorem shunt_rebracket (ls stack output : List Lexeme) :
    shunt (ls.map (rebracket o c)) (stack.map (rebracket o c)) (output.map (rebracket o c)) =
      replaced (Fault.rebracket o c) (List.map (rebracket o c)) (shunt ls stack output) := by
  fun_induction shunt ls stack output with
  | case1 stack output => exact unload_rebracket stack output
  | case2 _ _ _ _ _ ih | case3 _ _ _ _ ih | case4 _ _ _ _ _ ih | case8 _ _ _ _ ih => exact ih
  | case5 f stack output => rfl
  | case6 incoming rest stack output ih =>
    change shunt (operator incoming :: rest.map _) _ _ = _
    rw [shunt, takeWhile_rebracket (yields_rebracket incoming),
      dropWhile_rebracket (yields_rebracket incoming), ← List.map_reverse, ← List.map_append]
    exact ih
  | case7 rest stack output ih =>
    change shunt (separator :: rest.map _) _ _ = _
    rw [shunt, takeWhile_rebracket isOperator_rebracket,
      dropWhile_rebracket isOperator_rebracket, ← List.map_reverse, ← List.map_append]
    exact ih
  | case9 text rest stack output ih =>
    change shunt (closing (rebracketText o c text) :: rest.map _) _ _ = _
    rw [shunt, close_rebracket]
    exact bind_replaced (fun a => ih a.1 a.2) _

theorem toPostfix_rebracket (ls : List Lexeme) :
    toPostfix (ls.map (rebracket o c)) =
      replaced (Fault.rebracket o c) (List.map (rebracket o c)) (toPostfix ls) :=
  shunt_rebracket ls [] []

theorem buildStep_rebracket (operands : List Tree) (l : Lexeme) :
    buildStep operands (l.rebracket o c) =
      replaced (Fault.rebracket o c) id (buildStep operands l) := by
  cases l with
  | operator p =>
    change buildStep operands (operator p) = _
    simp only [buildStep]
    cases htaken : takeOperands? p.arity operands with
    | none => rfl
    | some split =>
      obtain ⟨taken, rest⟩ := split
      change (p.apply taken >>= fun t => pure (t :: rest)) =
        replaced _ id (p.apply taken >>= fun t => pure (t :: rest))
      cases happly : p.apply taken with
      | ok t => rfl
      | error e =>
        obtain rfl := Operator.apply_arity_onlyOverflows (takeOperands?_eq_some htaken).1 e happly
        rfl
  | function f =>
    change buildStep operands (function f) = _
    simp only [buildStep]
    cases takeOperands? f.arity operands <;> rfl
  | separator =>
    have htext : rebracketText o c "," = "," := by
      rw [← String.toList_inj, toList_rebracketText]
      rfl
    change _ = Except.error (Fault.misread (.unknownUnit (rebracketText o c ",")))
    rw [htext]
    rfl
  | _ => rfl

theorem build_rebracket (p : List Lexeme) :
    build (p.map (rebracket o c)) = replaced (Fault.rebracket o c) id (build p) := by
  have hfold : ∀ operands, (p.map (rebracket o c)).foldlM buildStep operands =
      replaced (Fault.rebracket o c) id (p.foldlM buildStep operands) := by
    induction p with
    | nil => exact fun _ => rfl
    | cons l p ih =>
      intro operands
      rw [List.map_cons, List.foldlM_cons, List.foldlM_cons, buildStep_rebracket]
      exact bind_replaced ih _
  rw [build, hfold]
  apply bind_replaced
  intro operands
  cases operands with
  | nil => rfl
  | cons t operands =>
    cases operands with
    | nil => rfl
    | cons u operands => rfl

end Lexeme

theorem Formula.lexemes_rebracket (h : IsBracketPair o c) {text : String}
    (htext : IsFree o c text.toList) :
    Lexeme.ofUnits (Brackets.pair o c) (units (Brackets.pair o c) (rebracketText o c text)) =
      (Lexeme.ofUnits standard (units standard text)).map (Lexeme.rebracket o c) := by
  have hcondensed : IsFree o c (condensed text.toList) :=
    condensed_of_forall ⟨h.opening.ne_plus.symm, h.closing.ne_plus.symm⟩ htext
  have hunits : units (Brackets.pair o c) (rebracketText o c text) =
      (units standard text).map (rebracketText o c) := by
    rw [units, toList_rebracketText, condensed_map h, unitsOfCondensed_map h hcondensed, units,
      List.map_map, List.map_map]
    exact List.map_congr_left fun u _ => (rebracketText_ofList u).symm
  rw [hunits, units]
  exact Lexeme.ofUnits_rebracket h (unitsOfCondensed_isFree h standard hcondensed)
    (isHeaded_unitsOfCondensed standard_isProper _)

/-- The brackets that are chosen do not matter. With a pair of brackets, a text that is written with
them is read as the text with round brackets is read by default: as the same tree, or with the same
fault, in which a unit is cited with the brackets that are chosen. -/
theorem Settings.parse_rebracketText {o c : Char} (hne : o ≠ c) (ho : CanBracket o)
    (hc : CanBracket c) {s : Settings} (hs : s.brackets = .string [.char o, .char c])
    {text : String} (htext : ∀ d ∈ text.toList, d ≠ o ∧ d ≠ c) :
    s.parse (rebracketText o c text) = (Settings.parse {} text).mapError (Fault.rebracket o c) := by
  have h : IsBracketPair o c := ⟨hne, ho, hc⟩
  have hparse : s.parse (rebracketText o c text) =
      replaced (Fault.rebracket o c) id (Formula.parse standard text) := by
    rw [Settings.parse, hs]
    change Lexeme.toPostfix (Lexeme.ofUnits (Brackets.pair o c)
      (units (Brackets.pair o c) (rebracketText o c text))) >>= Lexeme.build = _
    rw [lexemes_rebracket h htext]
    rw [Lexeme.toPostfix_rebracket]
    exact bind_replaced Lexeme.build_rebracket _
  rw [hparse]
  change replaced _ id (Formula.parse standard text) = (Formula.parse standard text).mapError _
  cases Formula.parse standard text <;> rfl

/-- A call in angle brackets. -/
theorem Settings.parse_rebracketText_of_angles :
    let s : Settings := { brackets := .string [.char '<', .char '>'] }
    let text := "max((x),y)"
    CanBracket '<' ∧ CanBracket '>' ∧ (∀ d ∈ text.toList, d ≠ '<' ∧ d ≠ '>') ∧
      rebracketText '<' '>' text = "max<<x>,y>" ∧
      s.parse "max<<x>,y>" = .ok (.call .max [.variable "x", .variable "y"]) := by
  intro s text
  have hopening : CanBracket '<' := by decide
  have hclosing : CanBracket '>' := by decide
  have hfree : ∀ d ∈ text.toList, d ≠ '<' ∧ d ≠ '>' := by simp [text]
  have hwritten : rebracketText '<' '>' text = "max<<x>,y>" := by
    rw [← String.toList_inj, toList_rebracketText]
    simp [text, rebracket]
  have hread : Settings.parse {} text = .ok (.call .max [.variable "x", .variable "y"]) := by
    change Formula.parse [.char '(', .char ')'] "max((x),y)" = _
    cbv
  have hparse := Settings.parse_rebracketText (s := s) (by decide) hopening hclosing rfl hfree
  rw [hwritten, hread] at hparse
  exact ⟨hopening, hclosing, hfree, hwritten, hparse⟩

end SymbolicAlgebra
