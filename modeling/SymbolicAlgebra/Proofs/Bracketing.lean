import Mathlib
import SymbolicAlgebra.Proofs.Classification
import SymbolicAlgebra.Proofs.Negation
import SymbolicAlgebra.Proofs.PostfixOrder

/-!
# Brackets around a whole formula

A formula that begins with no sign is read as the same tree when it is put in brackets: the scan
runs on as it did, one unit further, and the brackets stay at the bottom of the stack. A minus at
the beginning of a formula is a factor of minus one, and after a bracket it is a negation. The two
come to the same tree where the operand after the minus is not that of a power or a factorial.
-/

namespace SymbolicAlgebra

open Outcome
open Brackets (standard)

namespace Formula

namespace Scan

/-- A scan with more units before those it has. -/
def onto (base : List (List Char)) (s : Scan) : Scan := { s with units := s.units ++ base }

theorem step_onto (b : Brackets) (base : List (List Char)) (s : Scan) (c : Char) :
    (s.onto base).step b c = (s.step b c).onto base := by
  have hflush : (s.onto base).flush b c = (s.flush b c).onto base := by
    have hmarker : (s.onto base).marker? b c = s.marker? b c := rfl
    have hbreaks : (s.onto base).breaks b c = s.breaks b c := rfl
    have hcurrent : (s.onto base).current = s.current := rfl
    simp only [flush, hmarker, hbreaks, hcurrent]
    split
    · simp [onto]
    · rfl
  have hsign : (s.onto base).takesSign b = s.takesSign b := rfl
  have hlast : (s.onto base).last = s.last := rfl
  simp only [step, hflush, hsign, hlast]
  split
  · cases s.last <;> rfl
  · rfl

theorem foldl_onto (b : Brackets) (base : List (List Char)) (w : List Char) (s : Scan) :
    w.foldl (step b) (s.onto base) = (w.foldl (step b) s).onto base := by
  induction w generalizing s with
  | nil => rfl
  | cons c w ih => rw [List.foldl_cons, List.foldl_cons, step_onto, ih]

theorem finish_onto (base : List (List Char)) (s : Scan) :
    (s.onto base).finish = base.reverse ++ s.finish := by
  simp [finish, onto]

/-- After a character a unit is under way. -/
theorem current_step_ne_nil (b : Brackets) (s : Scan) (c : Char) : (s.step b c).current ≠ [] := by
  unfold step
  split
  · split <;> simp
  · simp

theorem current_foldl_ne_nil (b : Brackets) {s : Scan} (h : s.current ≠ []) (w : List Char) :
    (w.foldl (step b) s).current ≠ [] := by
  induction w generalizing s with
  | nil => exact h
  | cons c w ih => exact ih (current_step_ne_nil b s c)

theorem step_closing {s : Scan} (h : s.current ≠ []) :
    s.step standard ')' = under s.finish [')'] ')' := by
  have hbreaks : s.breaks standard ')' = true := by simp [breaks, standard_hasChar]
  have hmarker : s.marker? standard ')' = none := by
    simp [marker?, letterAfterDigit, standard_opens, show isOperandChar ')' = false by decide,
      show Text.isLetter ')' = false by decide]
  simp [step, flush, hbreaks, hmarker, h, finish, under]

theorem finish_step_closing {s : Scan} (h : s.current ≠ []) :
    (s.step standard ')').finish = s.finish ++ [[')']] := by
  simp [step_closing h, finish, under]

theorem finish_foldl (b : Brackets) {s : Scan} (h : s.last.isSome = true) (w : List Char) :
    ∃ v rest, (w.foldl (step b) s).finish = s.units.reverse ++ (s.current.reverse ++ v) :: rest := by
  induction w generalizing s with
  | nil => exact ⟨[], [], by simp [finish]⟩
  | cons c w ih =>
    obtain ⟨l, hl⟩ := Option.isSome_iff_exists.mp h
    obtain ⟨d, hstep⟩ : ∃ d, s.step b c =
        ⟨(s.flush b c).units, d :: (s.flush b c).current, some c⟩ := by
      unfold step
      split
      · exact ⟨_, by rw [hl]⟩
      · exact ⟨_, rfl⟩
    obtain ⟨v, rest, hfinish⟩ := ih (s := s.step b c) (by rw [hstep]; rfl)
    rw [List.foldl_cons, hfinish, hstep]
    unfold flush
    split
    · exact ⟨[], ((s.marker? b c).map ([·])).toList.reverse ++ (d :: v) :: rest, by simp⟩
    · exact ⟨d :: v, rest, by simp⟩

/-- A scan that has come to the first character of an operand, a bracket or an operator after
another. -/
def opened (c : Char) : Scan := ⟨[], [if c = '-' then Operator.negation else c], some c⟩

theorem start_step {c : Char} (hc : c ≠ '-') : start.step standard c = opened c := by
  simp [step, flush, start, hc, opened]

/-- After an operator or an opening bracket every character that may stand there begins a unit. -/
theorem step_opened {l m c : Char} (hl : l ∈ operatorChars ∨ l = '(')
    (hm : Text.isDigit m = false) (hc : isOperandChar c = true ∨ isMark c = true)
    (us : List (List Char)) :
    (⟨us, [m], some l⟩ : Scan).step standard c = (opened c).onto ([m] :: us) := by
  have hmark : isMark l = true := isMark_iff.mpr (hl.imp_right .inl)
  have hbreaks : (⟨us, [m], some l⟩ : Scan).breaks standard c = true := by
    have hafter : (⟨us, [m], some l⟩ : Scan).afterOperator standard = true := by
      rcases hl with h | h <;> simp [afterOperator, standard_hasChar, h]
    rcases hc with h | h
    · simp [breaks, hafter, h]
    · rcases isMark_iff.mp h with h | rfl | rfl
      · simp [breaks, h]
      · simp [breaks, standard_hasChar]
      · simp [breaks, standard_hasChar]
  have hmarker : (⟨us, [m], some l⟩ : Scan).marker? standard c = none := by
    have hclosing : l ≠ ')' := by
      rintro rfl
      simp [operatorChars] at hl
    simp [marker?, letterAfterDigit, hm, standard_closes, hclosing, isAlphanumeric_of_isMark hmark]
  have hflush : (⟨us, [m], some l⟩ : Scan).flush standard c = ⟨[m] :: us, [], some l⟩ := by
    simp [flush, hbreaks, hmarker]
  have hsign : (⟨us, [m], some l⟩ : Scan).takesSign standard = true := by
    rcases hl with h | h <;> simp [takesSign, standard_opens, h]
  by_cases hminus : c = '-'
  · subst hminus
    simp [step, hflush, hsign, opened, onto]
  · simp [step, hflush, hminus, opened, onto]

end Scan

theorem mergeSigns_concat (w : List Char) {c : Char} (hc : c ≠ '-') :
    mergeSigns (w ++ [c]) = mergeSigns w ++ [c] := by
  fun_induction mergeSigns w with
  | case1 w ih => simp [mergeSigns, ih]
  | case2 d w hd ih =>
    have hrest : mergeSigns (d :: (w ++ [c])) = d :: mergeSigns (w ++ [c]) := by
      rw [mergeSigns]
      rintro v rfl h
      cases w with
      | nil => exact hc (List.cons.inj h).1
      | cons e w =>
        obtain ⟨rfl, -⟩ := List.cons.inj h
        exact hd w rfl rfl
    rw [List.cons_append, hrest, ih, List.cons_append]
  | case3 => rw [List.nil_append, mergeSigns_cons hc]; rfl

theorem withoutBlanks_bracketed (text : String) :
    Text.withoutBlanks ("(" ++ text ++ ")").toList =
      '(' :: (Text.withoutBlanks text.toList ++ [')']) := by
  rw [String.toList_append, String.toList_append, Text.withoutBlanks_append,
    Text.withoutBlanks_append, List.append_assoc]
  rfl

theorem condensed_bracketed (text : String) :
    condensed ("(" ++ text ++ ")").toList = '(' :: (condensed text.toList ++ [')']) := by
  rw [condensed, withoutBlanks_bracketed, mergeSigns_cons (by decide),
    mergeSigns_concat _ (by decide), condensed]

/-- The units of a text that begins with an operand, an operator or a bracket stay as they are in
brackets. -/
theorem unitsOfCondensed_bracketed {c : Char} (v : List Char)
    (hc : isOperandChar c = true ∨ isMark c = true) (hminus : c ≠ '-') :
    unitsOfCondensed standard ('(' :: (c :: v ++ [')'])) =
      ['('] :: unitsOfCondensed standard (c :: v) ++ [[')']] := by
  have hopen : Scan.start.step standard '(' = Scan.opened '(' := Scan.start_step (by decide)
  have hnext : (Scan.opened '(').step standard c = (Scan.opened c).onto [['(']] :=
    Scan.step_opened (.inr rfl) (by decide) hc []
  have hcurrent : ((v.foldl (Scan.step standard) (Scan.opened c)).onto [['(']]).current ≠ [] :=
    Scan.current_foldl_ne_nil standard (by simp [Scan.opened]) v
  simp only [unitsOfCondensed, List.isEmpty_cons, Bool.false_eq_true, if_false, List.foldl_cons,
    List.foldl_append, List.foldl_nil, List.cons_append, hopen, hnext, Scan.start_step hminus,
    Scan.foldl_onto, Scan.finish_step_closing hcurrent, Scan.finish_onto]
  simp

theorem unitsOfCondensed_sign {c : Char} (v : List Char)
    (hc : isOperandChar c = true ∨ isMark c = true) :
    ∃ us, unitsOfCondensed standard ('-' :: c :: v) = ['-', '1'] :: ['•'] :: us ∧
      unitsOfCondensed standard ('(' :: ('-' :: c :: v ++ [')'])) =
        ['('] :: ['~'] :: us ++ [[')']] := by
  have hstart : Scan.start.step standard '-' = ⟨[['-', '1']], ['•'], some '-'⟩ := rfl
  have hfirst : (⟨[['-', '1']], ['•'], some '-'⟩ : Scan).step standard c =
      (Scan.opened c).onto [['•'], ['-', '1']] :=
    Scan.step_opened (.inl (by decide)) (by decide) hc _
  have hopen : Scan.start.step standard '(' = Scan.opened '(' := Scan.start_step (by decide)
  have hsign : (Scan.opened '(').step standard '-' = ⟨[['(']], ['~'], some '-'⟩ :=
    Scan.step_opened (.inr rfl) (by decide) (.inr (by decide)) []
  have hnext : (⟨[['(']], ['~'], some '-'⟩ : Scan).step standard c =
      (Scan.opened c).onto [['~'], ['(']] :=
    Scan.step_opened (.inl (by decide)) (by decide) hc _
  have hcurrent :
      ((v.foldl (Scan.step standard) (Scan.opened c)).onto [['~'], ['(']]).current ≠ [] :=
    Scan.current_foldl_ne_nil standard (by simp [Scan.opened]) v
  refine ⟨(v.foldl (Scan.step standard) (Scan.opened c)).finish, ?_, ?_⟩
  · simp [unitsOfCondensed, hstart, hfirst, Scan.foldl_onto, Scan.finish_onto]
  · simp [unitsOfCondensed, hopen, hsign, hnext, Scan.foldl_onto, Scan.finish_onto,
      Scan.finish_step_closing hcurrent]

end Formula

namespace Lexeme

/-- A closing bracket parts the units: those before it and those after it are what they would be
without the others. -/
theorem ofUnits_append_closing (units following : List String) :
    ofUnits standard (units ++ ")" :: following) =
      ofUnits standard units ++ closing ")" :: ofUnits standard following := by
  induction units with
  | nil => simp [ofUnits, ofUnit_closing]
  | cons unit rest ih =>
    have hcalled : ofUnit.calledFunction? standard unit (rest ++ ")" :: following) =
        ofUnit.calledFunction? standard unit rest := by
      cases rest with
      | nil =>
        have hmarker : ")" ≠ Operator.juxtapose.symbol := by decide
        cases following <;> simp [ofUnit.calledFunction?, hmarker]
      | cons marker rest =>
        cases rest with
        | nil => simp [ofUnit.calledFunction?, Formula.standard_opens]
        | cons opener rest => rfl
    have hunit : ofUnit standard unit (rest ++ ")" :: following) = ofUnit standard unit rest := by
      simp only [ofUnit, hcalled]
    rw [List.cons_append, ofUnits, ofUnits, hunit, ih, List.cons_append]

theorem takeWhile_concat {q : Lexeme → Bool} {l : Lexeme} (h : q l = false) (ls : List Lexeme) :
    (ls ++ [l]).takeWhile q = ls.takeWhile q := by
  induction ls with
  | nil => simp [h]
  | cons l' ls ih => by_cases hl : q l' = true <;> simp [hl, ih]

theorem dropWhile_concat {q : Lexeme → Bool} {l : Lexeme} (h : q l = false) (ls : List Lexeme) :
    (ls ++ [l]).dropWhile q = ls.dropWhile q ++ [l] := by
  induction ls with
  | nil => simp [h]
  | cons l' ls ih => by_cases hl : q l' = true <;> simp [hl, ih]

theorem close_over {text : String} {stack output stack' output' : List Lexeme} (o : String)
    (h : close text stack output = .ok (stack', output')) :
    close text (stack ++ [opening o]) output = .ok (stack' ++ [opening o], output') := by
  obtain ⟨above, o', below, rfl, habove, hcases⟩ := close_eq_ok h
  have hopening : (opening o').isOpening = true := rfl
  have htake : (above ++ opening o' :: (below ++ [opening o])).takeWhile (!·.isOpening) = above := by
    rw [List.takeWhile_append_of_pos (by simpa using habove)]
    simp [hopening]
  have hdrop : (above ++ opening o' :: (below ++ [opening o])).dropWhile (!·.isOpening) =
      opening o' :: (below ++ [opening o]) := by
    rw [List.dropWhile_append_of_pos (by simpa using habove)]
    simp [hopening]
  rw [List.append_assoc, List.cons_append, close, htake, hdrop]
  rcases hcases with ⟨f, rfl, rfl⟩ | ⟨hnot, rfl, rfl⟩
  · rfl
  · cases stack' with
    | nil => rfl
    | cons l below =>
      cases l with
      | function f => exact absurd rfl (hnot f below)
      | _ => rfl

theorem shunt_over {ls stack output p : List Lexeme} (hcalls : HasCalls ls)
    (h : shunt ls stack output = .ok p) (o c : String) :
    shunt (ls ++ [closing c]) (stack ++ [opening o]) output = .ok p := by
  fun_induction shunt ls stack output with
  | case1 stack output =>
    obtain ⟨hstack, rfl⟩ := unload_eq_ok h
    have hopening : (opening o).isOpening = true := rfl
    have htake : (stack ++ [opening o]).takeWhile (!·.isOpening) = stack := by
      rw [List.takeWhile_append_of_pos (by simpa using hstack)]
      simp [hopening]
    have hdrop : (stack ++ [opening o]).dropWhile (!·.isOpening) = [opening o] := by
      rw [List.dropWhile_append_of_pos (by simpa using hstack)]
      simp [hopening]
    rw [List.nil_append, shunt, close, htake, hdrop]
    simp [shunt, unload, pure, Except.pure, bind, Except.bind]
  | case2 text value rest stack output ih => exact ih hcalls h
  | case3 text rest stack output ih => exact ih hcalls h
  | case4 f marker rest stack output ih =>
    obtain ⟨⟨o', ls, hrest⟩, hcalls⟩ := hcalls
    obtain ⟨rfl, -⟩ := List.cons.inj hrest
    exact ih hcalls h
  | case5 f stack output =>
    obtain ⟨⟨o', ls, hrest⟩, -⟩ := hcalls
    cases hrest
  | case6 o' rest stack output ih =>
    rw [List.cons_append, shunt, takeWhile_concat rfl, dropWhile_concat rfl]
    exact ih hcalls h
  | case7 rest stack output ih =>
    rw [List.cons_append, shunt, takeWhile_concat rfl, dropWhile_concat rfl]
    exact ih hcalls h
  | case8 text rest stack output ih => exact ih hcalls h
  | case9 text rest stack output ih =>
    obtain ⟨⟨stack', output'⟩, hclose, h⟩ := bind_eq_ok.mp h
    rw [List.cons_append, shunt, close_over o hclose]
    exact ih _ _ hcalls h

theorem shunt_output (ls stack output old : List Lexeme) :
    shunt ls stack (output ++ old) = (old.reverse ++ ·) <$> shunt ls stack output := by
  have hunload : ∀ stack output : List Lexeme,
      unload stack (output ++ old) = (old.reverse ++ ·) <$> unload stack output := by
    intro stack output
    unfold unload
    split <;> simp
  fun_induction shunt ls stack output with
  | case1 stack output => exact hunload stack output
  | case2 text value rest stack output ih => exact ih
  | case3 text rest stack output ih => exact ih
  | case4 f marker rest stack output ih => exact ih
  | case5 f stack output => rfl
  | case6 o rest stack output ih => rw [shunt, ← ih, List.append_assoc]
  | case7 rest stack output ih => rw [shunt, ← ih, List.append_assoc]
  | case8 text rest stack output ih => exact ih
  | case9 text rest stack output ih =>
    have hclose : close text stack (output ++ old) =
        (fun r => (r.1, r.2 ++ old)) <$> close text stack output := by
      unfold close
      rw [← List.append_assoc]
      dsimp only
      split <;> simp
    rw [shunt, hclose, map_eq_pure_bind, bind_assoc, map_bind]
    refine bind_congr fun r => ?_
    exact ih r.1 r.2

end Lexeme

theorem Phrase.lexemes_ne_nil (a : Phrase .atom) : a.lexemes ≠ [] := by
  cases a <;> simp [Phrase.lexemes]

namespace Lexeme

/-- What follows an operand is no power or factorial of it: an operator that binds no tighter than a
product, a separator or nothing. -/
def LeavesOperand : List Lexeme → Prop
  | [] | separator :: _ => True
  | operator o :: _ => o.precedence ≤ 2
  | _ => False

theorem HasCalls.of_append {ls rest : List Lexeme} (h : HasCalls (ls ++ rest)) : HasCalls rest := by
  induction ls with
  | nil => exact h
  | cons l ls ih =>
    cases l with
    | function f => exact ih h.2
    | _ => exact ih h

/-- The operator before an operand comes out right after it, whichever of the two it is. -/
theorem shunt_leavesOperand {rest : List Lexeme} (h : LeavesOperand rest) :
    ∃ later : Except Fault (List Lexeme), ∀ (o : Operator) (output : List Lexeme), 2 ≤ o.precedence →
      shunt rest [operator o] output = (output.reverse ++ operator o :: ·) <$> later := by
  have hmoved : ∀ (ls stack : List Lexeme) (o : Operator) (output : List Lexeme),
      shunt ls stack (operator o :: output) =
        (output.reverse ++ operator o :: ·) <$> shunt ls stack [] := by
    intro ls stack o output
    rw [← List.nil_append (operator o :: output), shunt_output]
    simp
  match rest with
  | [] => exact ⟨.ok [], fun o output _ => rfl⟩
  | separator :: rest => exact ⟨shunt rest [] [], fun o output _ => hmoved rest [] o output⟩
  | operator o' :: rest =>
    refine ⟨shunt rest [operator o'] [], fun o output ho => ?_⟩
    have hyields : yields o' (operator o) = true := by
      have hle : o'.precedence ≤ 2 := h
      have hright : o'.isRightAssociative = false := by
        clear ho
        revert hle
        cases o' <;> decide
      simp only [yields, hright, Bool.not_false, Bool.and_true, Bool.or_eq_true, decide_eq_true_eq]
      omega
    rw [shunt, List.takeWhile_cons_of_pos hyields, List.dropWhile_cons_of_pos hyields]
    exact hmoved rest [operator o'] o output

theorem guarded_atom (o : Operator) (stack : List Lexeme) :
    Guarded Tier.atom.below (operator o :: stack) := by
  show o.precedence ≤ 4
  cases o <;> decide

theorem shunt_atom (a : Phrase .atom) {stack : List Lexeme} (h : Guarded Tier.atom.below stack)
    (rest output : List Lexeme) :
    shunt (a.lexemes ++ rest) stack output = shunt rest stack (a.postorder.reverse ++ output) := by
  obtain ⟨pending, done, hpending, hpost, hrun⟩ := a.shunts
  have hnil : pending = [] := by
    cases pending with
    | nil => rfl
    | cons l pending =>
      obtain ⟨o, -, ho⟩ := hpending l List.mem_cons_self
      have hle : o.precedence ≤ 4 := by cases o <;> decide
      exact absurd ho (by simp [Tier.least]; omega)
  subst hnil
  rw [hrun rest stack output h, hpost]
  simp

theorem toPostfix_sign {a : Phrase .atom} {rest p : List Lexeme} (hcalls : HasCalls rest)
    (hrest : LeavesOperand rest)
    (h : toPostfix (operand "-1" .negativeOne :: operator .juxtapose :: (a.lexemes ++ rest)) = .ok p) :
    ∃ later, p = operand "-1" .negativeOne :: (a.postorder ++ operator .juxtapose :: later) ∧
      toPostfix (opening "(" :: operator .negate :: (a.lexemes ++ rest ++ [closing ")"])) =
        .ok (a.postorder ++ operator .negate :: later) := by
  obtain ⟨later, hlater⟩ := shunt_leavesOperand hrest
  have hproduct : shunt (a.lexemes ++ rest) [operator .juxtapose] [operand "-1" .negativeOne] =
      .ok p := h
  rw [shunt_atom a (guarded_atom _ _), hlater _ _ (by decide)] at hproduct
  obtain ⟨later', rfl, rfl⟩ := map_eq_ok.mp hproduct
  refine ⟨later', by simp, ?_⟩
  have hnegation : shunt (a.lexemes ++ (rest ++ [closing ")"]))
      ([operator .negate] ++ [opening "("]) [] = .ok (a.postorder ++ operator .negate :: later') := by
    have hopen : shunt rest [operator .negate] (a.postorder.reverse ++ []) =
        .ok (a.postorder ++ operator .negate :: later') := by
      rw [hlater _ _ (by decide)]
      simp
    rw [List.singleton_append, shunt_atom a (guarded_atom _ _)]
    exact shunt_over hcalls hopen "(" ")"
  rw [List.append_assoc]
  exact hnegation

/-- Nothing is built unless the operand after the sign is. -/
theorem tree_of_build_sign {a : Phrase .atom} {later : List Lexeme} {t : Tree}
    (h : build (operand "-1" .negativeOne :: (a.postorder ++ operator .juxtapose :: later)) = .ok t) :
    ∃ u, a.tree = .ok u := by
  cases hu : a.tree with
  | ok u => exact ⟨u, rfl⟩
  | error e =>
    have hatom : ∀ operands, a.postorder.foldlM buildStep operands = .error e := by
      intro operands
      rw [a.builds operands, hu]
      rfl
    have hminus : buildStep [] (operand "-1" .negativeOne) = .ok [.negativeOne] := rfl
    simp only [build, List.foldlM_cons, List.foldlM_append, hminus, ok_bind, hatom] at h
    cases h

theorem build_sign {a : Phrase .atom} {u : Tree} (hu : a.tree = .ok u) (hfolded : u.IsFolded)
    (later : List Lexeme) :
    build (a.postorder ++ operator .negate :: later) =
      build (operand "-1" .negativeOne :: (a.postorder ++ operator .juxtapose :: later)) := by
  have hatom : ∀ operands, a.postorder.foldlM buildStep operands = .ok (u :: operands) := by
    intro operands
    rw [a.builds operands, hu]
    rfl
  have hnegate : buildStep [u] (operator .negate) = (do return [← u.negate]) := rfl
  have hproduct : buildStep [u, .negativeOne] (operator .juxtapose) =
      (do return [← Tree.negativeOne.multiply u]) := rfl
  have hminus : buildStep [] (operand "-1" .negativeOne) = .ok [.negativeOne] := rfl
  simp only [build, List.foldlM_append, List.foldlM_cons, hatom, hminus, ok_bind, hnegate, hproduct,
    Tree.negativeOne_multiply hfolded]

end Lexeme

namespace Formula

open Lexeme

/-- The text begins with no minus, and not with one of the markers that are no characters of
formulas. -/
def BeginsPlainly (text : String) : Prop :=
  ∀ c ∈ (condensed text.toList).head?,
    c ≠ '-' ∧ c ≠ Operator.negation ∧ c ≠ Operator.juxtaposition

/-- The text begins with a minus before an operand that is not that of a power or a factorial. -/
def BeginsWithSign (text : String) : Prop :=
  (condensed text.toList).head? = some '-' ∧
    ∃ (a : Phrase .atom) (rest : List Lexeme),
      ofUnits standard (units standard text) =
          operand "-1" .negativeOne :: operator .juxtapose :: (a.lexemes ++ rest) ∧
        LeavesOperand rest ∧ ∀ u, a.tree = .ok u → u.IsFolded

theorem lexemes_isBuilding {b : Brackets} {text : String} {t : Tree} (h : parse b text = .ok t) :
    ∃ p, toPostfix (ofUnits b (units b text)) = .ok p ∧ build p = .ok t ∧
      ∀ l ∈ payload (ofUnits b (units b text)), l.IsBuilding := by
  obtain ⟨p, hp, hbuild⟩ := bind_eq_ok.mp h
  exact ⟨p, hp, hbuild, fun l hl =>
    (gain_of_build hbuild).1 l ((perm_of_toPostfix hp).mem_iff.mpr hl)⟩

theorem parse_of_units_bracketed {text text' : String} {t : Tree}
    (h : parse standard text = .ok t)
    (hunits : units standard text' = "(" :: (units standard text ++ [")"])) :
    parse standard text' = .ok t := by
  obtain ⟨p, hp, hbuild⟩ := bind_eq_ok.mp h
  have hpost := shunt_over (hasCalls_ofUnits (units standard text)) hp "(" ")"
  rw [parse, hunits, ofUnits, ofUnit_opening, ofUnits_append_closing, ofUnits]
  change (do build (← toPostfix (opening "(" :: _))) = _
  rw [toPostfix, shunt, show [opening "("] = [] ++ [opening "("] from rfl, hpost, ok_bind, hbuild]

theorem units_eq (text : String) :
    units standard text =
      (unitsOfCondensed standard (condensed text.toList)).map String.ofList := rfl

theorem unitsOfCondensed_cons {c : Char} (hc : c ≠ '-') (v : List Char) :
    ∃ u us, unitsOfCondensed standard (c :: v) = (c :: u) :: us := by
  obtain ⟨u, us, hfinish⟩ := Scan.finish_foldl standard (s := Scan.opened c) rfl v
  refine ⟨u, us, ?_⟩
  rw [unitsOfCondensed, List.foldl_cons, Scan.start_step hc, hfinish]
  simp [Scan.opened, hc]

theorem unitsOfCondensed_minus_cons {c : Char} (hoperand : isOperandChar c = false)
    (hmark : isMark c = false) (v : List Char) :
    ∃ u us, unitsOfCondensed standard ('-' :: c :: v) = ['-', '1'] :: ('•' :: c :: u) :: us := by
  have hstart : Scan.start.step standard '-' = ⟨[['-', '1']], ['•'], some '-'⟩ := rfl
  have hnot := not_isMark_iff.mp hmark
  have hminus : c ≠ '-' := by
    rintro rfl
    exact hnot.1 (by decide)
  have hbreaks : (⟨[['-', '1']], ['•'], some '-'⟩ : Scan).breaks standard c = false := by
    simp [Scan.breaks, standard_hasChar, hnot, Scan.letterAfterDigit,
      show Text.isDigit '•' = false by decide, hoperand]
  have hstep : (⟨[['-', '1']], ['•'], some '-'⟩ : Scan).step standard c =
      ⟨[['-', '1']], [c, '•'], some c⟩ := by
    simp [Scan.step, Scan.flush, hbreaks, hminus]
  obtain ⟨u, us, hfinish⟩ :=
    Scan.finish_foldl standard (s := ⟨[['-', '1']], [c, '•'], some c⟩) rfl v
  refine ⟨u, us, ?_⟩
  simp [unitsOfCondensed, hstart, hstep, hfinish]

theorem parse_bracketed_plain {text : String} {t : Tree} (h : parse standard text = .ok t)
    (hplain : BeginsPlainly text) : parse standard ("(" ++ text ++ ")") = .ok t := by
  apply parse_of_units_bracketed h
  rw [units_eq, units_eq, condensed_bracketed]
  cases htext : condensed text.toList with
  | nil => rfl
  | cons c v =>
    obtain ⟨hminus, hnegation, hjuxtaposition⟩ := hplain c (by rw [htext]; rfl)
    by_cases hc : isOperandChar c = true ∨ isMark c = true
    · rw [unitsOfCondensed_bracketed v hc hminus]
      simp
    · rw [not_or, Bool.not_eq_true, Bool.not_eq_true] at hc
      obtain ⟨u, us, hunits⟩ := unitsOfCondensed_cons hminus v
      obtain ⟨-, -, -, hbuilding⟩ := lexemes_isBuilding h
      rw [units_eq, htext, hunits, List.map_cons, ofUnits,
        ofUnit_unknown (String.toList_ofList) hc.1 hc.2 hnegation hjuxtaposition] at hbuilding
      exact (hbuilding _ List.mem_cons_self).elim

theorem parse_bracketed_sign {text : String} {t : Tree} (h : parse standard text = .ok t)
    (hsign : BeginsWithSign text) : parse standard ("(" ++ text ++ ")") = .ok t := by
  obtain ⟨hhead, a, rest, hlexemes, hrest, hfolded⟩ := hsign
  obtain ⟨v, htext⟩ : ∃ v, condensed text.toList = '-' :: v := by
    cases hcondensed : condensed text.toList with
    | nil => simp [hcondensed] at hhead
    | cons c v =>
      rw [hcondensed, List.head?_cons, Option.some.injEq] at hhead
      exact ⟨v, by rw [hhead]⟩
  have hcalls : HasCalls rest := by
    have hall := hasCalls_ofUnits (units standard text)
    rw [hlexemes, ← List.cons_append, ← List.cons_append] at hall
    exact hall.of_append
  obtain ⟨p, hp, hbuild, -⟩ := lexemes_isBuilding h
  rw [hlexemes] at hp
  obtain ⟨later, rfl, hpost⟩ := toPostfix_sign hcalls hrest hp
  obtain ⟨u, hu⟩ := tree_of_build_sign hbuild
  rw [← build_sign hu (hfolded u hu)] at hbuild
  obtain ⟨us, hunits, hbracketed⟩ :
      ∃ us, units standard text = "-1" :: "•" :: us ∧
        units standard ("(" ++ text ++ ")") = "(" :: "~" :: (us ++ [")"]) := by
    rw [units_eq] at hlexemes
    rw [units_eq, units_eq, condensed_bracketed]
    rw [htext] at hlexemes ⊢
    cases v with
    | nil =>
      have hnil : a.lexemes ++ rest = [] := by
        have hlength := congrArg List.length hlexemes
        rw [length_ofUnits] at hlength
        rw [← List.length_eq_zero_iff]
        simpa [unitsOfCondensed, Scan.start, Scan.step, Scan.flush, Scan.finish, Scan.takesSign]
          using hlength
      exact absurd (List.append_eq_nil_iff.mp hnil).1 a.lexemes_ne_nil
    | cons c v =>
      by_cases hc : isOperandChar c = true ∨ isMark c = true
      · obtain ⟨us, hunits, hbracketed⟩ := unitsOfCondensed_sign v hc
        exact ⟨us.map String.ofList, by rw [hunits]; rfl, by rw [hbracketed]; simp⟩
      · rw [not_or, Bool.not_eq_true, Bool.not_eq_true] at hc
        obtain ⟨w, us, hunits⟩ := unitsOfCondensed_minus_cons hc.1 hc.2 v
        rw [hunits, List.map_cons, List.map_cons, ofUnits, ofUnits] at hlexemes
        have hmarker := (List.cons.inj (List.cons.inj hlexemes).2).1
        have hsymbol := congrArg String.toList (eq_symbol_of_operator hmarker)
        simp [Operator.symbol] at hsymbol
  rw [hunits, ofUnits, ofUnits] at hlexemes
  have hus := (List.cons.inj (List.cons.inj hlexemes).2).2
  have hnegation : ofUnit standard "~" (us ++ [")"]) = operator .negate := ofUnit_symbol .negate _
  rw [parse, hbracketed, ofUnits, ofUnits, ofUnit_opening, hnegation, ofUnits_append_closing, ofUnits,
    hus, hpost, ok_bind, hbuild]

/-- A text that begins with no minus, or with one before an operand that is not that of a power or a
factorial, is read as the same tree when it is put in brackets. -/
theorem parse_bracketed {text : String} {t : Tree} (h : parse standard text = .ok t)
    (hbegins : BeginsPlainly text ∨ BeginsWithSign text) :
    parse standard ("(" ++ text ++ ")") = .ok t :=
  hbegins.elim (parse_bracketed_plain h) (parse_bracketed_sign h)

/-- A sign before a function that is a factor of a product. -/
theorem parse_bracketed_of_opposite_product :
    let call : Tree := .call .max [.variable "x", .one]
    let t : Tree := .term
      ⟨.negativeOne, .one, [⟨call, .one⟩, ⟨.variable "y", .one⟩], [.placeholder]⟩
    parse standard "-max(x,1)*y" = .ok t ∧ BeginsWithSign "-max(x,1)*y" ∧
      parse standard ("(" ++ "-max(x,1)*y" ++ ")") = .ok t := by
  intro call t
  let sum (text : String) (value : Tree) : Phrase .sum :=
    .product (.power (.unary (.atom (.operand text value))))
  let a : Phrase .atom :=
    .call .max "(" ")" (.cons (sum "x" (.variable "x")) (.last (sum "1" .one)))
  have hparse : parse standard "-max(x,1)*y" = .ok t := by cbv
  have hcall : a.tree = .ok call := rfl
  have hsign : BeginsWithSign "-max(x,1)*y" := by
    refine ⟨by decide +kernel, a, [operator .multiply, operand "y" (.variable "y")], by rfl, ?_, ?_⟩
    · exact Nat.le_refl 2
    · intro u hu
      rw [hcall] at hu
      obtain rfl := Except.ok.inj hu
      trivial
  exact ⟨hparse, hsign, parse_bracketed hparse (.inr hsign)⟩

/-- The sign at the beginning of a text is that of a power, and within brackets that of its base. -/
theorem parse_bracketed_opposite_square :
    ∃ t t' : Tree, parse standard "-x^2" = .ok t ∧ parse standard "(-x^2)" = .ok t' ∧
      ∃ I : Interpretation, t.meaning? I = some (-1) ∧ t'.meaning? I = some 1 := by
  let opposite : Tree := .term ⟨.exact (-1), .one, [⟨.variable "x", .one⟩], [.placeholder]⟩
  refine ⟨.term ⟨.exact (-1), .one, [⟨.variable "x", .number (.exact 2)⟩], [.placeholder]⟩,
    .power ⟨opposite, .number (.exact 2)⟩, by cbv, by cbv,
    ⟨fun _ => 1, fun _ => 0, fun _ _ => none⟩, ?_, ?_⟩
  · decide +kernel
  · decide +kernel

/-- A marker that is written out is one at the beginning of a text only. -/
example : (parse standard "~(x)").isOk = true ∧ (parse standard "(~(x))").isOk = false := by
  constructor <;> cbv

end Formula

end SymbolicAlgebra
