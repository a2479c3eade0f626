import SymbolicAlgebra.Proofs.Bracketing

/-!
# Units spell their text

Cutting a text into units loses no character and changes no order. Beyond the characters of the text
there stand in the units only the markers of products, a star between a closing bracket and an
opening one, and the one of the factor `-1` that is made of a minus at the beginning. The main
statement holds of all brackets.

Every unit grows from a single character by characters that are no brackets, which gives an
induction principle for units.
-/

namespace SymbolicAlgebra.Formula

/-- The characters that those of units stand for: none for the marker of a product, and a minus for
the marker of a sign. -/
def restored (written : List Char) : List Char :=
  (written.filter (· ≠ Operator.juxtaposition)).map fun c =>
    if c = Operator.negation then '-' else c

/-- The characters that units may hold beyond those of their text, and the minus, which a marker may
stand for. -/
def addedChars : List Char := ['*', Operator.juxtaposition, Operator.negation, '-', '1']

/-- A text with a star between every closing bracket and an opening one right after it. -/
def starred (b : Brackets) : List Char → List Char
  | l :: c :: rest =>
    if b.closes [l] && b.opens [c] then l :: '*' :: starred b (c :: rest)
    else l :: starred b (c :: rest)
  | text => text

/-- A text with its stars and with a minus at the beginning as a factor `-1`. -/
def writtenOut (b : Brackets) (text : List Char) : List Char :=
  match starred b text with
  | '-' :: rest => '-' :: '1' :: rest
  | rest => rest

theorem restored_append (v w : List Char) : restored (v ++ w) = restored v ++ restored w := by
  simp [restored]

theorem starred_cons (b : Brackets) (l : Char) (w : List Char) :
    starred b (l :: w) = l :: (starred b (l :: w)).tail := by
  cases w with
  | nil => rfl
  | cons c w =>
    rw [starred]
    split
    · rfl
    · rfl

theorem hasChar_of_find? {w : List Char} {b : Brackets} {i : Nat}
    (h : Brackets.find? (Text.CodePoint.ofChars w) b = some i) : ∀ c ∈ w, b.hasChar c = true := by
  induction b generalizing i with
  | nil =>
    have hw : w = [] := by
      cases w with
      | nil => rfl
      | cons c w => simp [Brackets.find?, Text.CodePoint.ofChars] at h
    simp [hw]
  | cons d b ih =>
    intro c hc
    rw [Brackets.hasChar, List.contains_iff_mem]
    by_cases hprefix : (Text.CodePoint.ofChars w).isPrefixOf (d :: b) = true
    · apply (List.isPrefixOf_iff_prefix.mp hprefix).subset
      exact List.mem_map_of_mem hc
    · rw [Brackets.find?, if_neg hprefix] at h
      obtain ⟨j, hj, -⟩ := Option.map_eq_some_iff.mp h
      apply List.mem_cons_of_mem
      exact List.contains_iff_mem.mp (ih hj c hc)

theorem hasChar_of_opens {b : Brackets} {u : List Char} (h : b.opens u = true) :
    ∀ c ∈ u, b.hasChar c = true := by
  cases hplace : b.place? u with
  | none => simp [Brackets.opens, hplace] at h
  | some i => exact hasChar_of_find? hplace

namespace Scan

variable {b : Brackets} {s : Scan} {l c : Char}

/-- What is written for a character: itself, or the marker of a sign. -/
def signed (b : Brackets) (s : Scan) (c : Char) : Char :=
  if c = '-' && s.takesSign b then Operator.negation else c

/-- The marker of a product that is written before a character. -/
def inserted? (b : Brackets) (s : Scan) (c : Char) : Option Char :=
  if s.breaks b c then s.marker? b c else none

theorem last_step (b : Brackets) (s : Scan) (c : Char) : (s.step b c).last = some c := by
  unfold step
  split
  · split
    · rfl
    · rfl
  · rfl

theorem step_eq (hlast : s.last = some l) :
    s.step b c = ⟨(s.flush b c).units, s.signed b c :: (s.flush b c).current, some c⟩ := by
  by_cases hsign : (c = '-' && s.takesSign b) = true
  · simp only [step, signed, hsign, if_true, hlast]
  · simp only [step, signed, hsign, if_false, Bool.false_eq_true]

theorem flush_of_breaks (hcurrent : s.current ≠ []) (hbreaks : s.breaks b c = true) :
    s.flush b c =
      ⟨((s.marker? b c).map ([·])).toList ++ s.current.reverse :: s.units, [], s.last⟩ := by
  simp [flush, hbreaks, hcurrent]

theorem flush_of_not_breaks (hbreaks : s.breaks b c = false) : s.flush b c = s := by
  simp [flush, hbreaks]

theorem signed_of_not_breaks (hbreaks : s.breaks b c = false) : s.signed b c = c := by
  have hminus : c ≠ '-' := by
    rintro rfl
    simp [breaks, operatorChars] at hbreaks
  simp [signed, hminus]

theorem flatten_finish_step (hlast : s.last = some l) (hcurrent : s.current ≠ []) :
    (s.step b c).finish.flatten =
      s.finish.flatten ++ ((s.inserted? b c).toList ++ [s.signed b c]) := by
  rw [step_eq hlast]
  by_cases hbreaks : s.breaks b c = true
  · rw [flush_of_breaks hcurrent hbreaks, inserted?, if_pos hbreaks]
    cases s.marker? b c with
    | none => simp [finish]
    | some m => simp [finish]
  · rw [Bool.not_eq_true] at hbreaks
    rw [flush_of_not_breaks hbreaks, inserted?, hbreaks]
    simp [finish]

theorem restored_inserted? (hlast : s.last = some l) :
    restored (s.inserted? b c).toList = if b.closes [l] && b.opens [c] then ['*'] else [] := by
  by_cases hstar : (b.closes [l] && b.opens [c]) = true
  · obtain ⟨hcloses, hopens⟩ := Bool.and_eq_true_iff.mp hstar
    have hbreaks : s.breaks b c = true := by simp [breaks, hasChar_of_opens hopens]
    have hmarker : s.marker? b c = some '*' := by simp [marker?, hlast, hcloses, hopens]
    rw [inserted?, if_pos hbreaks, hmarker, if_pos hstar]
    rfl
  · rw [if_neg hstar]
    have hmarker : s.inserted? b c = none ∨ s.inserted? b c = some Operator.juxtaposition := by
      simp only [inserted?, marker?, hlast, Option.any_some, hstar, if_false, Bool.false_eq_true]
      split_ifs <;> simp
    rcases hmarker with hmarker | hmarker
    · rw [hmarker]
      rfl
    · rw [hmarker]
      rfl

theorem restored_signed (hjuxtaposition : c ≠ Operator.juxtaposition)
    (hnegation : c ≠ Operator.negation) : restored [s.signed b c] = [c] := by
  by_cases hsign : (c = '-' && s.takesSign b) = true
  · have hminus : c = '-' := by
      rw [Bool.and_eq_true, decide_eq_true_eq] at hsign
      exact hsign.1
    rw [signed, if_pos hsign, hminus]
    rfl
  · rw [signed, if_neg hsign]
    simp [restored, hjuxtaposition, hnegation]

theorem restored_foldl (hlast : s.last = some l) (hcurrent : s.current ≠ []) {w : List Char}
    (hw : ∀ c ∈ w, c ≠ Operator.juxtaposition ∧ c ≠ Operator.negation) :
    restored (w.foldl (step b) s).finish.flatten =
      restored s.finish.flatten ++ (starred b (l :: w)).tail := by
  induction w generalizing s l with
  | nil => simp [starred]
  | cons c w ih =>
    obtain ⟨⟨hjuxtaposition, hnegation⟩, hw⟩ := List.forall_mem_cons.mp hw
    rw [List.foldl_cons, ih (last_step b s c) (current_step_ne_nil b s c) hw,
      flatten_finish_step hlast hcurrent, restored_append, restored_append,
      restored_inserted? hlast, restored_signed hjuxtaposition hnegation, List.append_assoc,
      List.append_assoc, starred]
    congr 1
    by_cases hstar : (b.closes [l] && b.opens [c]) = true
    · rw [if_pos hstar, if_pos hstar, List.tail_cons, starred_cons b c w]
      rfl
    · rw [if_neg hstar, if_neg hstar, List.tail_cons, starred_cons b c w]
      rfl

theorem mem_addedChars_of_inserted? {m : Char} (h : s.inserted? b c = some m) : m ∈ addedChars := by
  have hmarker : m = '*' ∨ m = Operator.juxtaposition := by
    simp only [inserted?, marker?] at h
    split_ifs at h
    all_goals simp only [Option.some.injEq] at h
    all_goals simp [← h]
  rcases hmarker with rfl | rfl
  · decide
  · decide

theorem signed_cases (b : Brackets) (s : Scan) (c : Char) :
    s.signed b c = c ∨ s.signed b c ∈ addedChars ∧ c ∈ addedChars := by
  by_cases hsign : (c = '-' && s.takesSign b) = true
  · rw [signed, if_pos hsign]
    rw [Bool.and_eq_true, decide_eq_true_eq] at hsign
    rw [hsign.1]
    exact .inr (by decide)
  · rw [signed, if_neg hsign]
    exact .inl rfl

theorem filter_step {p : Char → Bool} (hp : ∀ m ∈ addedChars, p m = false) (hlast : s.last = some l)
    (hcurrent : s.current ≠ []) :
    (s.step b c).finish.flatten.filter p = s.finish.flatten.filter p ++ [c].filter p := by
  have hinserted : (s.inserted? b c).toList.filter p = [] := by
    apply List.filter_eq_nil_iff.mpr
    intro m hm
    simp [hp m (mem_addedChars_of_inserted? (Option.mem_toList.mp hm))]
  have hsigned : [s.signed b c].filter p = [c].filter p := by
    rcases signed_cases b s c with h | ⟨hsigned, hc⟩
    · rw [h]
    · simp [hp _ hsigned, hp _ hc]
  rw [flatten_finish_step hlast hcurrent, List.filter_append, List.filter_append, hinserted,
    hsigned, List.nil_append]

theorem filter_foldl {p : Char → Bool} (hp : ∀ m ∈ addedChars, p m = false)
    (hlast : s.last = some l) (hcurrent : s.current ≠ []) (w : List Char) :
    (w.foldl (step b) s).finish.flatten.filter p = s.finish.flatten.filter p ++ w.filter p := by
  induction w generalizing s l with
  | nil => simp
  | cons c w ih =>
    rw [List.foldl_cons, ih (last_step b s c) (current_step_ne_nil b s c),
      filter_step hp hlast hcurrent, List.append_assoc, ← List.filter_append, List.singleton_append]

/-- A property of units that single characters have, and that units keep which grow by a character
that is no bracket, is kept by a step. -/
theorem forall_finish_step {P : List Char → Prop} (hsingle : ∀ m, P [m])
    (hgrow : ∀ u c, P u → b.hasChar c = false → P (u ++ [c])) (hlast : s.last = some l)
    (hcurrent : s.current ≠ []) (hs : ∀ u ∈ s.finish, P u) : ∀ u ∈ (s.step b c).finish, P u := by
  rw [step_eq hlast]
  by_cases hbreaks : s.breaks b c = true
  · rw [flush_of_breaks hcurrent hbreaks]
    intro u hu
    have hcases : u = [s.signed b c] ∨ (∃ m, s.marker? b c = some m ∧ [m] = u) ∨ u ∈ s.finish := by
      simp only [finish, List.mem_reverse, List.mem_cons, List.mem_append, Option.mem_toList,
        Option.map_eq_some_iff, List.reverse_cons, List.reverse_nil, List.nil_append] at hu ⊢
      rcases hu with (hmarker | hu | hu) | hu | hu <;> simp_all
    rcases hcases with rfl | ⟨m, -, rfl⟩ | hu
    · exact hsingle _
    · exact hsingle m
    · exact hs u hu
  · rw [Bool.not_eq_true] at hbreaks
    rw [flush_of_not_breaks hbreaks, signed_of_not_breaks hbreaks]
    have hchar : b.hasChar c = false := by
      simp only [breaks, Bool.or_eq_false_iff] at hbreaks
      exact hbreaks.1.1.1
    intro u hu
    have hcases : u = s.current.reverse ++ [c] ∨ u ∈ s.units := by
      simpa [finish, or_comm] using hu
    rcases hcases with rfl | hu
    · exact hgrow _ _ (hs _ (by simp [finish])) hchar
    · exact hs u (by simp [finish, hu])

theorem forall_finish_foldl {P : List Char → Prop} (hsingle : ∀ m, P [m])
    (hgrow : ∀ u c, P u → b.hasChar c = false → P (u ++ [c])) (w : List Char)
    (hlast : s.last = some l) (hcurrent : s.current ≠ []) (hs : ∀ u ∈ s.finish, P u) :
    ∀ u ∈ (w.foldl (step b) s).finish, P u := by
  induction w generalizing s l with
  | nil => exact hs
  | cons c w ih =>
    apply ih (last_step b s c) (current_step_ne_nil b s c)
    exact forall_finish_step hsingle hgrow hlast hcurrent hs

/-- After its first character a scan has one unit, or the factor `-1` and a marker. -/
theorem start_step_cases (b : Brackets) (c : Char) :
    (start.step b c).last = some c ∧ (start.step b c).current ≠ [] ∧
      (c ≠ '-' ∧ (start.step b c).finish = [[c]] ∨
        c = '-' ∧ (start.step b c).finish = [['-', '1'], [Operator.juxtaposition]]) := by
  by_cases hc : c = '-'
  · subst hc
    simp [step, takesSign, start, flush, finish]
  · simp [step, start, flush, finish, hc]

end Scan

/-- Every unit grows from a single character, or from the factor `-1`, by characters that are no
brackets. -/
theorem unitsOfCondensed_induction {b : Brackets} {P : List Char → Prop} (hsingle : ∀ m, P [m])
    (hminus : P ['-', '1']) (hgrow : ∀ u c, P u → b.hasChar c = false → P (u ++ [c]))
    (w : List Char) : ∀ u ∈ unitsOfCondensed b w, P u := by
  cases w with
  | nil => simp [unitsOfCondensed]
  | cons c w =>
    obtain ⟨hlast, hcurrent, hfinish⟩ := Scan.start_step_cases b c
    apply Scan.forall_finish_foldl hsingle hgrow w hlast hcurrent
    rcases hfinish with ⟨-, hfinish⟩ | ⟨-, hfinish⟩
    · simpa [hfinish] using hsingle c
    · simpa [hfinish] using And.intro hminus (hsingle _)

theorem restored_unitsOfCondensed (b : Brackets) {w : List Char}
    (hw : ∀ c ∈ w, c ≠ Operator.juxtaposition ∧ c ≠ Operator.negation) :
    restored (unitsOfCondensed b w).flatten = writtenOut b w := by
  cases w with
  | nil => rfl
  | cons c w =>
    obtain ⟨⟨hjuxtaposition, hnegation⟩, hw⟩ := List.forall_mem_cons.mp hw
    obtain ⟨hlast, hcurrent, hfinish⟩ := Scan.start_step_cases b c
    have hrun := Scan.restored_foldl (b := b) hlast hcurrent hw
    change restored (w.foldl (Scan.step b) (Scan.start.step b c)).finish.flatten = _
    rw [hrun, writtenOut, starred_cons]
    rcases hfinish with ⟨hminus, hfinish⟩ | ⟨rfl, hfinish⟩
    · rw [hfinish]
      simp [restored, hjuxtaposition, hnegation, hminus]
    · rw [hfinish]
      rfl

/-- Characters of a kind to which none of the added ones belong stand in the units as they stand in
the text. -/
theorem filter_unitsOfCondensed {p : Char → Bool} (hp : ∀ m ∈ addedChars, p m = false)
    (b : Brackets) (w : List Char) :
    (unitsOfCondensed b w).flatten.filter p = w.filter p := by
  cases w with
  | nil => rfl
  | cons c w =>
    obtain ⟨hlast, hcurrent, hfinish⟩ := Scan.start_step_cases b c
    change (w.foldl (Scan.step b) (Scan.start.step b c)).finish.flatten.filter p = _
    rw [Scan.filter_foldl hp hlast hcurrent, ← List.singleton_append, List.filter_append]
    congr 1
    rcases hfinish with ⟨-, hfinish⟩ | ⟨rfl, hfinish⟩
    · rw [hfinish]
      rfl
    · rw [hfinish]
      have hminus : p '-' = false := hp '-' (by decide)
      have hone : p '1' = false := hp '1' (by decide)
      have hmarker : p Operator.juxtaposition = false := hp _ (by decide)
      simp [hminus, hone, hmarker]

theorem filter_condensed {p : Char → Bool} (hminus : p '-' = false) (hplus : p '+' = false)
    (hblank : ∀ c, p c = true → Text.isBlank c = false) (w : List Char) :
    (condensed w).filter p = w.filter p := by
  have hmerge : ∀ w : List Char, (mergeSigns w).filter p = w.filter p := by
    intro w
    fun_induction mergeSigns w with
    | case1 w ih => simp [hminus, hplus, ih]
    | case2 c w hc ih => simp only [List.filter_cons, ih]
    | case3 => rfl
  rw [condensed, hmerge, Text.withoutBlanks, List.filter_filter]
  apply List.filter_congr
  intro c _
  by_cases hc : p c = true
  · simp [hc, hblank c hc]
  · simp [hc]

theorem condensed_of_forall {p : Char → Prop} (hplus : p '+') {w : List Char} (hw : ∀ c ∈ w, p c) :
    ∀ c ∈ condensed w, p c := by
  have hmerge : ∀ w : List Char, (∀ c ∈ w, p c) → ∀ c ∈ mergeSigns w, p c := by
    intro w hw
    fun_induction mergeSigns w with
    | case1 w ih => simp_all
    | case2 c w hc ih => simp_all
    | case3 => simp
  exact hmerge _ fun c hc => hw c (List.mem_of_mem_filter hc)

/-- Nothing of a text is lost when it is cut into units. No unit is empty, and read one after the
other they are the text without its blanks and double signs, with a star between brackets back to
back and a minus at the beginning as a factor. -/
theorem units_spell_text (b : Brackets) (text : String)
    (h : ∀ c ∈ text.toList, c ≠ Operator.juxtaposition ∧ c ≠ Operator.negation) :
    (condensed text.toList = [] → units b text = []) ∧
      (condensed text.toList ≠ [] →
        "" ∉ units b text ∧
          restored ((units b text).flatMap String.toList) =
            writtenOut b (condensed text.toList)) := by
  have hunits : units b text =
      (unitsOfCondensed b (condensed text.toList)).map String.ofList := rfl
  refine ⟨fun hnil => ?_, fun _ => ⟨fun hempty => ?_, ?_⟩⟩
  · rw [hunits, hnil]
    rfl
  · obtain ⟨u, hu, hnil⟩ := List.mem_map.mp (hunits ▸ hempty)
    have hne : u ≠ [] :=
      unitsOfCondensed_induction (P := (· ≠ [])) (by simp) (by simp) (by simp) _ u hu
    exact hne (String.ofList_eq_empty_iff.mp hnil)
  · have hflat : (units b text).flatMap String.toList =
        (unitsOfCondensed b (condensed text.toList)).flatten := by
      rw [hunits, List.flatMap_map]
      simp [List.flatMap_def]
    rw [hflat]
    exact restored_unitsOfCondensed b (condensed_of_forall (by decide) h)

/-- A text with two kinds of brackets, signs of three kinds and a name that is none. -/
theorem units_spell_text_of_signs :
    let b := Text.CodePoint.ofString "()[]"
    let text := "-(x) [-2y] --_3"
    (∀ c ∈ text.toList, c ≠ Operator.juxtaposition ∧ c ≠ Operator.negation) ∧
      "" ∉ units b text ∧
      restored ((units b text).flatMap String.toList) = "-1(x)*[-2y]+_3".toList := by
  intro b text
  have htext : ∀ c ∈ text.toList, c ≠ Operator.juxtaposition ∧ c ≠ Operator.negation := by
    simp [text, Operator.juxtaposition, Operator.negation]
  have hwritten : writtenOut b (condensed text.toList) = "-1(x)*[-2y]+_3".toList := by
    decide +kernel
  obtain ⟨hempty, hrestored⟩ := (units_spell_text b text htext).2 (by decide +kernel)
  exact ⟨htext, hempty, hrestored.trans hwritten⟩

end SymbolicAlgebra.Formula
