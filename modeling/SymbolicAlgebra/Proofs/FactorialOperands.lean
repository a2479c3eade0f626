import SymbolicAlgebra.Proofs.Bracketing

/-!
# Factorials as operands

A text in brackets is cut into the same units and classified alike wherever an operand may stand.
So the factorial of one such text may be the left operand of every binary operator but the minus,
and the whole is read as that operator of the factorial and of the right operand. A minus after an
exclamation mark is a sign, and two operands are left over.
-/

namespace SymbolicAlgebra

open Brackets (standard)

namespace Formula

namespace Scan

theorem onto_under (before us : List (List Char)) (u : List Char) (l : Char) :
    (under us u l).onto before.reverse = under (before ++ us) u l := by
  simp [under, onto]

end Scan

theorem Cut.of_bracketed (w : List Char) : ∃ us, Cut ('(' :: (w ++ [')'])) '(' ')' us [')'] := by
  let inside := w.foldl (Scan.step standard) (Scan.opened '(')
  have hinside : inside.current ≠ [] :=
    Scan.current_foldl_ne_nil standard (by simp [Scan.opened]) w
  refine ⟨inside.finish, rfl, ?_, .inr (.inl rfl), .inr (by decide), rfl,
    fun {s before} hs => ?_⟩
  · rw [← List.cons_append, List.getLast?_concat]
  have hopen : s.step standard '(' = (Scan.opened '(').onto before.reverse :=
    Scan.step_of_ready hs.1 (by simp)
  rw [List.foldl_cons, List.foldl_append, hopen, Scan.foldl_onto, List.foldl_cons, List.foldl_nil,
    Scan.step_onto, Scan.step_closing hinside, Scan.onto_under]

theorem Cut.before_sign {w w' : List Char} {first last : Char} {us us' : List (List Char)}
    {u u' : List Char} (h : Cut w first '!' us u) (h' : Cut w' '-' last us' u') :
    Cut (w ++ w') first last (us ++ u :: us') u' := by
  refine ⟨?_, ?_, h.begins, h'.ends, h'.underWay, fun {s before} hs => ?_⟩
  · rw [List.head?_append_of_ne_nil _ h.ne_nil, h.head]
  · rw [List.getLast?_append_of_ne_nil _ h'.ne_nil, h'.getLast]
  have hawaits : (Scan.under (before ++ us) u '!').Awaits '-' (before ++ us ++ [u]) :=
    ⟨Scan.ready_mark h.underWay_ne_nil (.inl (by decide)),
      fun _ => ⟨rfl, Scan.takesSign_under.mpr (.inl (by decide))⟩⟩
  rw [List.foldl_append, h.scan hs, h'.scan hawaits]
  simp

end Formula

namespace Lexeme

theorem classifies_closed (us : List (List Char)) :
    Classifies (us ++ [[')']]) (ofUnits standard ((us ++ [[')']]).map String.ofList)) := by
  intro following
  simp [show String.ofList [')'] = ")" from rfl, ofUnits_append_closing, ofUnits]

end Lexeme

namespace Formula

open Lexeme (ofUnits Classifies classifies_unit classifies_closed)

theorem reads_bracketed (text : String) :
    ∃ us, Cut (condensed ("(" ++ text ++ ")").toList) '(' ')' us [')'] ∧
      Classifies (us ++ [[')']]) (ofUnits standard (units standard ("(" ++ text ++ ")"))) := by
  obtain ⟨us, hcut⟩ := Cut.of_bracketed (condensed text.toList)
  rw [← condensed_bracketed] at hcut
  refine ⟨us, hcut, ?_⟩
  rw [units_eq, hcut.unitsOfCondensed (by decide)]
  exact classifies_closed us

end Formula

namespace Operator

def infixed : List Operator := [add, subtract, multiply, divide, remainder, raise]

theorem symbolChar_of_mem_infixed {o : Operator} (h : o ∈ infixed) :
    o.symbolChar ∈ Formula.operatorChars := by
  revert h
  cases o <;> decide

end Operator

theorem Phrase.exists_infixed (u : Phrase .unary) (a : Phrase .atom) {o : Operator}
    (ho : o ∈ Operator.infixed) :
    ∃ p : Phrase .sum, p.lexemes = u.lexemes ++ .operator o :: a.lexemes ∧
      p.tree = (do o.apply [← u.tree, ← a.tree]) := by
  simp only [Operator.infixed, List.mem_cons, List.not_mem_nil, or_false] at ho
  rcases ho with rfl | rfl | rfl | rfl | rfl | rfl
  · exact ⟨.add (.product (.power (.unary u))) .add (by decide) (.power (.unary (.atom a))), rfl,
      rfl⟩
  · exact ⟨.add (.product (.power (.unary u))) .subtract (by decide) (.power (.unary (.atom a))),
      rfl, rfl⟩
  · exact ⟨.product (.multiply (.power (.unary u)) .multiply (by decide) (.unary (.atom a))), rfl,
      rfl⟩
  · exact ⟨.product (.multiply (.power (.unary u)) .divide (by decide) (.unary (.atom a))), rfl,
      rfl⟩
  · exact ⟨.product (.multiply (.power (.unary u)) .remainder (by decide) (.unary (.atom a))), rfl,
      rfl⟩
  · exact ⟨.product (.power (.raise u (.unary (.atom a)))), rfl, rfl⟩

namespace Lexeme

theorem toPostfix_factorial_negate (a b : Phrase .atom) :
    toPostfix (a.lexemes ++ operator .factorial :: operator .negate :: b.lexemes) =
      .ok (a.postorder ++ operator .factorial :: (b.postorder ++ [operator .negate])) := by
  have hnegate : ∀ rest output : List Lexeme,
      shunt (operator .factorial :: operator .negate :: rest) [] output =
        shunt rest [operator .negate] (operator .factorial :: output) := fun _ _ => rfl
  have hend := shunt_atom b (guarded_atom .negate [])
    [] (operator .factorial :: (a.postorder.reverse ++ []))
  rw [List.append_nil] at hend
  have hempty : Guarded Tier.atom.below [] := trivial
  rw [toPostfix, shunt_atom a hempty, hnegate, hend, shunt, unload]
  simp [isOpening, pure, Except.pure]

theorem build_factorial_negate {a b : Phrase .atom} {s t : Tree} (hs : a.tree = .ok s)
    (ht : b.tree = .ok t) :
    build (a.postorder ++ operator .factorial :: (b.postorder ++ [operator .negate])) =
      (do let _ ← t.negate; throw (.misread (.surplusOperands 2))) := by
  have ha : ∀ operands, a.postorder.foldlM buildStep operands = .ok (s :: operands) := by
    intro operands
    rw [a.builds operands, hs]
    rfl
  have hb : ∀ operands, b.postorder.foldlM buildStep operands = .ok (t :: operands) := by
    intro operands
    rw [b.builds operands, ht]
    rfl
  have hfactorial : buildStep [s] (operator .factorial) = .ok [.call .factorial [s]] := rfl
  have hnegate : ∀ operands, buildStep (t :: operands) (operator .negate) =
      (do return (← t.negate) :: operands) := fun _ => rfl
  simp only [build, List.foldlM_append, List.foldlM_cons, List.foldlM_nil, ha, hb, hfactorial,
    hnegate, Outcome.ok_bind]
  cases t.negate <;> rfl

end Lexeme

namespace Formula

open Lexeme (ofUnits classifies_unit)

/-- The text in brackets consists of the lexemes of a sum of the grammar in brackets. -/
def IsBracketedSum (text : String) : Prop :=
  ∃ s : Phrase .sum,
    ofUnits standard (units standard ("(" ++ text ++ ")")) = (Phrase.bracketed "(" ")" s).lexemes

variable {a b : String}

theorem condensed_factorial_operand (a b : String) {o : Operator} (ho : o ∈ Operator.infixed) :
    condensed ("(" ++ a ++ ")!" ++ o.symbol ++ "(" ++ b ++ ")").toList =
      condensed ("(" ++ a ++ ")").toList ++ ['!'] ++
        o.symbolChar :: condensed ("(" ++ b ++ ")").toList := by
  have hblank : Text.isBlank o.symbolChar = false := by
    revert ho
    cases o <;> decide
  have htext : ("(" ++ a ++ ")!" ++ o.symbol ++ "(" ++ b ++ ")").toList =
      ("(" ++ a ++ ")").toList ++ ('!' :: o.symbolChar :: ("(" ++ b ++ ")").toList) := by
    simp [Operator.symbol]
  have hblanks : Text.withoutBlanks ('!' :: o.symbolChar :: ("(" ++ b ++ ")").toList) =
      '!' :: o.symbolChar :: Text.withoutBlanks ("(" ++ b ++ ")").toList := by
    simp [Text.withoutBlanks, show Text.isBlank '!' = false by decide, hblank]
  have hclosing : (Text.withoutBlanks ("(" ++ a ++ ")").toList).getLast? ≠ some '-' := by
    rw [withoutBlanks_bracketed, ← List.cons_append, List.getLast?_concat]
    decide
  have hopening : (Text.withoutBlanks ("(" ++ b ++ ")").toList).head? ≠ some '-' := by
    rw [withoutBlanks_bracketed]
    simp
  have hright : mergeSigns (o.symbolChar :: Text.withoutBlanks ("(" ++ b ++ ")").toList) =
      o.symbolChar :: condensed ("(" ++ b ++ ")").toList := by
    by_cases hminus : o.symbolChar = '-'
    · rw [hminus, mergeSigns_minus hopening, condensed]
    · rw [mergeSigns_cons hminus, condensed]
  rw [condensed, htext, Text.withoutBlanks_append, hblanks, mergeSigns_append hclosing,
    mergeSigns_cons (by decide), hright, List.append_assoc]
  rfl

theorem lexemes_factorial_operand (a b : String) {o : Operator} (ho : o ∈ Operator.infixed) :
    ofUnits standard (units standard ("(" ++ a ++ ")!" ++ o.symbol ++ "(" ++ b ++ ")")) =
      ofUnits standard (units standard ("(" ++ a ++ ")")) ++ .operator .factorial ::
        .operator (if o = .subtract then .negate else o) ::
          ofUnits standard (units standard ("(" ++ b ++ ")")) := by
  obtain ⟨us, hleft, hlefts⟩ := reads_bracketed a
  obtain ⟨vs, hright, hrights⟩ := reads_bracketed b
  have hfactorial := classifies_unit (u := ['!']) (Lexeme.ofUnit_symbol .factorial)
  rw [units_eq, condensed_factorial_operand a b ho]
  split
  · next h =>
    subst h
    have hnegate := classifies_unit (u := ['~']) (Lexeme.ofUnit_symbol .negate)
    have hcut := hleft.postfixed.before_sign hright.signed
    rw [show Operator.subtract.symbolChar = '-' from rfl, hcut.unitsOfCondensed (by decide)]
    have hall := (((hlefts.append hfactorial).append hnegate).append hrights) []
    simpa [ofUnits] using hall
  · next h =>
    have hinfix := classifies_unit (u := [o.symbolChar]) (Lexeme.ofUnit_symbol o)
    have hminus : o.symbolChar ≠ '-' := by
      revert ho h
      cases o <;> decide
    have hcut := hleft.postfixed.joined hright (Operator.symbolChar_of_mem_infixed ho)
      fun h => absurd h hminus
    rw [hcut.unitsOfCondensed (by decide)]
    have hall := (((hlefts.append hfactorial).append hinfix).append hrights) []
    simpa [ofUnits] using hall

end Formula

end SymbolicAlgebra
