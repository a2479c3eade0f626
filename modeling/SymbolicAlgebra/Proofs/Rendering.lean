import SymbolicAlgebra.Formula.Reading
import SymbolicAlgebra.Proofs.PhraseMeaning
import SymbolicAlgebra.Proofs.Scanning
import SymbolicAlgebra.Proofs.Shunting

/-!
# Texts of phrases

A part of a text `Reads` as a list of lexemes if it is cut into their units wherever it may stand.
Whole texts are put together from operands in the same ways as phrases are, and a text that reads as
the lexemes of a phrase is parsed as the tree of the phrase. A minus at the beginning of a text is a
factor `-1`; anywhere else it is an operator.
-/

namespace SymbolicAlgebra

namespace Text

open Formula (isOperandChar)

theorem exists_range_of_inRanges {ranges : List (Nat × Nat)} {n : Nat}
    (h : inRanges ranges n = true) : ∃ r ∈ ranges, r.1 ≤ n ∧ n ≤ r.2 := by
  induction ranges with
  | nil => cases h
  | cons r ranges ih =>
    obtain ⟨low, high⟩ := r
    simp only [inRanges] at h
    split at h
    · cases h
    · next hlow =>
      rcases Bool.or_eq_true_iff.mp h with hhigh | hrest
      · exact ⟨(low, high), List.mem_cons_self, not_lt.mp hlow, of_decide_eq_true hhigh⟩
      · obtain ⟨r, hr, hn⟩ := ih hrest
        exact ⟨r, List.mem_cons_of_mem _ hr, hn⟩

def blanks : List Nat := blankRanges.flatMap fun r => List.range' r.1 (r.2 + 1 - r.1)

theorem isOperandChar_of_isBlank {c : Char} (h : isBlank c = true) : isOperandChar c = false := by
  obtain ⟨r, hr, hlow, hhigh⟩ := exists_range_of_inRanges h
  have hmem : c.toNat ∈ blanks := by
    refine List.mem_flatMap.mpr ⟨r, hr, ?_⟩
    rw [List.mem_range'_1]
    omega
  have hall : ∀ n ∈ blanks, isOperandChar (Char.ofNat n) = false := by decide +kernel
  simpa using hall c.toNat hmem

theorem isBlank_of_isOperandChar {c : Char} (h : isOperandChar c = true) : isBlank c = false := by
  by_contra hc
  simp [isOperandChar_of_isBlank (by simpa using hc)] at h

theorem letterRanges_digitZeros :
    (letterRanges.all fun r => digitZeros.all fun z => r.2.blt z || (z + 10).ble r.1) = true := by
  decide +kernel

theorem isLetter_of_isDecimalDigit {c : Char} (h : isDecimalDigit c = true) :
    isLetter c = false := by
  obtain ⟨n, hn⟩ := Option.isSome_iff_exists.mp h
  unfold digitValue? at hn
  split at hn
  · cases hn
  obtain ⟨z, hz, -⟩ := Option.map_eq_some_iff.mp hn
  have hdigit := List.find?_some hz
  simp only [Bool.and_eq_true, decide_eq_true_eq] at hdigit
  by_contra hletter
  obtain ⟨r, hr, hlow, hhigh⟩ := exists_range_of_inRanges (by simpa [isLetter] using hletter)
  have hapart := List.all_eq_true.mp (List.all_eq_true.mp letterRanges_digitZeros r hr) z
    (List.mem_of_find?_eq_some hz)
  rcases Bool.or_eq_true_iff.mp hapart with h | h
  · have hlt := Nat.blt_eq.mp h
    omega
  · have hle := Nat.le_of_ble_eq_true h
    omega

end Text

namespace Formula

instance (l c : Char) : Decidable (Continues l c) :=
  inferInstanceAs (Decidable (_ ∧ (_ → _)))

theorem mergeSigns_cons {c : Char} (hc : c ≠ '-') (w : List Char) :
    mergeSigns (c :: w) = c :: mergeSigns w := by
  rw [mergeSigns]
  rintro v rfl
  exact absurd rfl hc

theorem mergeSigns_minus {w : List Char} (hw : w.head? ≠ some '-') :
    mergeSigns ('-' :: w) = '-' :: mergeSigns w := by
  rw [mergeSigns]
  rintro v - rfl
  exact absurd rfl hw

theorem mergeSigns_append {w v : List Char} (hw : w.getLast? ≠ some '-') :
    mergeSigns (w ++ v) = mergeSigns w ++ mergeSigns v := by
  fun_induction mergeSigns w with
  | case1 w ih =>
    cases w with
    | nil => simp at hw
    | cons c w =>
      have hlast : (c :: w).getLast? ≠ some '-' := by simpa [List.getLast?_cons_cons] using hw
      simp [mergeSigns, ← ih hlast]
  | case2 c w hc ih =>
    cases w with
    | nil =>
      have hminus : c ≠ '-' := by simpa using hw
      simp [mergeSigns_cons hminus, mergeSigns]
    | cons d w =>
      have hlast : (d :: w).getLast? ≠ some '-' := by simpa [List.getLast?_cons_cons] using hw
      have hrest : mergeSigns (c :: (d :: w ++ v)) = c :: mergeSigns (d :: w ++ v) := by
        rw [mergeSigns]
        rintro v' rfl h
        obtain ⟨rfl, -⟩ := List.cons.inj h
        exact hc w rfl rfl
      rw [List.cons_append, hrest, ih hlast]
      rfl
  | case3 => simp

end Formula

namespace Lexeme

open Brackets (standard)
open Formula (isOperandChar)

theorem ofUnit_symbol (o : Operator) (following : List String) :
    ofUnit standard o.symbol following = operator o := by
  simp [ofUnit, Operator.ofSymbol?_symbol]

theorem ofUnit_separator (following : List String) :
    ofUnit standard "," following = separator := by
  simp [ofUnit, show Operator.ofSymbol? "," = none by decide]

theorem ofUnit_opening (following : List String) :
    ofUnit standard "(" following = opening "(" := by
  simp [ofUnit, show Operator.ofSymbol? "(" = none by decide, Formula.standard_opens]

theorem ofUnit_closing (following : List String) :
    ofUnit standard ")" following = closing ")" := by
  simp [ofUnit, show Operator.ofSymbol? ")" = none by decide, Formula.standard_opens,
    Formula.standard_closes]

theorem not_isOperandChar_symbolChar (o : Operator) : isOperandChar o.symbolChar = false := by
  cases o <;> decide +kernel

variable {c : Char} {v : List Char}

theorem ofSymbol?_operand (hc : isOperandChar c = true) :
    Operator.ofSymbol? (String.ofList (c :: v)) = none := by
  rw [Operator.ofSymbol?, List.find?_eq_none]
  intro o _ ho
  have hchars : [o.symbolChar] = c :: v := by
    simpa [Operator.symbol] using congrArg String.toList (of_decide_eq_true ho)
  obtain ⟨rfl, -⟩ := List.cons.inj hchars
  simp [not_isOperandChar_symbolChar] at hc

theorem place?_operand (hc : isOperandChar c = true) : standard.place? (c :: v) = none := by
  have hmark := Formula.not_isMark_iff.mp (Formula.not_isMark_of_isOperandChar hc)
  simp [Brackets.place?, standard, Text.CodePoint.ofChars, Brackets.find?, hmark.2.1, hmark.2.2]

/-- A unit that begins like a number or a name is one, or it is nothing known. -/
theorem ofUnit_operand (hc : isOperandChar c = true) (following : List String) :
    ofUnit standard (String.ofList (c :: v)) following =
      match numberValue? (c :: v) with
      | some q => operand (String.ofList (c :: v)) (.number (.exact q))
      | none =>
        match ofUnit.calledFunction? standard (String.ofList (c :: v)) following with
        | some f => function f
        | none =>
          match Constant.ofName? (String.ofList (c :: v)) with
          | some k => operand (String.ofList (c :: v)) (.constant k)
          | none =>
            if isVariable (c :: v) then
              operand (String.ofList (c :: v)) (.variable (String.ofList (c :: v)))
            else unknown (String.ofList (c :: v)) := by
  have hcomma : String.ofList (c :: v) ≠ "," := by
    intro h
    have hchars : c :: v = [','] := by simpa using congrArg String.toList h
    obtain ⟨rfl, -⟩ := List.cons.inj hchars
    revert hc
    decide
  have hbracket : standard.opens (c :: v) = false ∧ standard.closes (c :: v) = false := by
    simp [Brackets.opens, Brackets.closes, place?_operand hc]
  rw [ofUnit, ofSymbol?_operand hc]
  cases hnumber : numberValue? (c :: v) with
  | some q => simp [-String.ofList_cons, hcomma, hbracket, hnumber]
  | none =>
    cases hfunction : ofUnit.calledFunction? standard (String.ofList (c :: v)) following with
    | some f => simp [-String.ofList_cons, hcomma, hbracket, hnumber]
    | none =>
      cases hconstant : Constant.ofName? (String.ofList (c :: v)) <;>
        simp [-String.ofList_cons, hcomma, hbracket, hnumber]

theorem ofUnit_number {q : Rat} (hc : isOperandChar c = true) (hq : numberValue? (c :: v) = some q)
    (following : List String) :
    ofUnit standard (String.ofList (c :: v)) following =
      operand (String.ofList (c :: v)) (.number (.exact q)) := by
  rw [ofUnit_operand hc, hq]

theorem ofUnit_minusOne (following : List String) :
    ofUnit standard "-1" following = operand "-1" .negativeOne := by
  have hvalue : numberValue? ['-', '1'] = some (-1) := by rfl
  simp [ofUnit, show Operator.ofSymbol? "-1" = none by decide, Brackets.opens, Brackets.closes,
    Brackets.place?, standard, Brackets.find?, Text.CodePoint.ofChars, hvalue]
  rfl

theorem numberValue?_function (f : Function) : numberValue? f.name.toList = none := by
  cases f <;> rfl

theorem ofUnit_function (f : Function) (following : List String) :
    ofUnit standard f.name ("•" :: "(" :: following) = function f := by
  obtain ⟨c, v, hc, hname⟩ : ∃ c v, isOperandChar c = true ∧ f.name.toList = c :: v := by
    cases f <;> exact ⟨_, _, by decide, rfl⟩
  have hcalled : ofUnit.calledFunction? standard f.name ("•" :: "(" :: following) = some f := by
    rw [← Function.ofName?_name f]
    rfl
  have hunit := ofUnit_operand (v := v) hc ("•" :: "(" :: following)
  rw [← hname, String.ofList_toList, numberValue?_function, hcalled] at hunit
  exact hunit

/-- Only a name before a marker and a bracket is that of a function. -/
theorem calledFunction?_of_not_name (b : Brackets) {unit : String}
    (h : Function.ofName? unit = none) (following : List String) :
    ofUnit.calledFunction? b unit following = none := by
  unfold ofUnit.calledFunction?
  split
  · split
    · exact h
    · rfl
  · rfl

theorem ofUnit_constant (k : Constant) (following : List String) :
    ofUnit standard k.symbol following = operand k.symbol (.constant k) := by
  obtain ⟨c, v, hc, hsymbol⟩ : ∃ c v, isOperandChar c = true ∧ k.symbol.toList = c :: v := by
    cases k <;> exact ⟨_, _, by decide, rfl⟩
  have hnumber : numberValue? k.symbol.toList = none := by cases k <;> rfl
  have hname : Function.ofName? k.symbol = none := by cases k <;> rfl
  have hcalled := calledFunction?_of_not_name standard hname following
  have hunit := ofUnit_operand (v := v) hc following
  rw [← hsymbol, String.ofList_toList, hnumber, hcalled, Constant.ofName?_symbol] at hunit
  exact hunit

/-- The name of a variable; no constant has it. -/
def IsName (name : String) : Prop :=
  isVariable name.toList = true ∧ Constant.ofName? name = none

theorem isVariable_function (f : Function) : isVariable f.name.toList = false := by
  cases f <;> rfl

theorem isVariable_cases {name : List Char} (h : isVariable name = true) :
    ∃ c rest, name = c :: rest ∧ Text.isAlphanumeric c = true ∧ Text.isDecimalDigit c = false ∧
      (rest = [] ∨ ∃ index, rest = '_' :: index ∧ index ≠ [] ∧
        ∀ d ∈ index, Text.isDecimalDigit d = true) := by
  cases name with
  | nil => cases h
  | cons c rest =>
    simp only [isVariable, Bool.and_eq_true, Bool.not_eq_true'] at h
    obtain ⟨⟨hc, hdigit⟩, hrest⟩ := h
    refine ⟨c, rest, rfl, hc, hdigit, ?_⟩
    split at hrest
    · exact .inl rfl
    · next index =>
      exact .inr ⟨index, rfl, by simpa using hrest⟩
    · cases hrest

theorem numberValue?_of_isVariable {name : List Char} (h : isVariable name = true) :
    numberValue? name = none := by
  obtain ⟨c, rest, rfl, hc, hdigit, -⟩ := isVariable_cases h
  have hminus : c ≠ '-' := by
    rintro rfl
    revert hc
    decide
  have hpoint : c ≠ '.' := by
    rintro rfl
    revert hc
    decide
  simp [numberValue?, isNumber, hminus, hdigit]
  split <;> simp_all

theorem ofUnit_variable {name : String} (h : IsName name) (following : List String) :
    ofUnit standard name following = operand name (.variable name) := by
  obtain ⟨c, v, hname, hc, -⟩ := isVariable_cases h.1
  have hfunction : Function.ofName? name = none := by
    cases hf : Function.ofName? name with
    | none => rfl
    | some f =>
      have hfname : f.name = name := by simpa using List.find?_some hf
      have hvar := h.1
      rw [← hfname, isVariable_function] at hvar
      cases hvar
  have hcalled := calledFunction?_of_not_name standard hfunction following
  have hunit := ofUnit_operand (c := c) (v := v) (by simp [isOperandChar, hc]) following
  have hvar := h.1
  rw [hname] at hvar
  rw [← String.ofList_toList (s := name), hname] at h hcalled ⊢
  rw [hunit, numberValue?_of_isVariable hvar, hcalled, h.2]
  simp [hvar]

/-- Whatever units come after them, the units are those of the lexemes. -/
def Classifies (units : List (List Char)) (ls : List Lexeme) : Prop :=
  ∀ following : List String, ofUnits standard (units.map String.ofList ++ following) =
    ls ++ ofUnits standard following

theorem Classifies.append {us us' : List (List Char)} {ls ls' : List Lexeme}
    (h : Classifies us ls) (h' : Classifies us' ls') : Classifies (us ++ us') (ls ++ ls') := by
  intro following
  rw [List.map_append, List.append_assoc, h, h', List.append_assoc]

theorem classifies_unit {u : List Char} {l : Lexeme}
    (h : ∀ following, ofUnit standard (String.ofList u) following = l) : Classifies [u] [l] := by
  intro following
  simp [ofUnits, h]

theorem classifies_function (f : Function) :
    Classifies [f.name.toList, ['•'], ['(']]
      [function f, operator .juxtapose, opening "("] := by
  intro following
  have hmarker := ofUnit_symbol .juxtapose ("(" :: following)
  simp only [List.map_cons, List.map_nil, List.cons_append, List.nil_append, ofUnits,
    String.ofList_toList]
  rw [show String.ofList ['•'] = "•" from rfl, show String.ofList ['('] = "(" from rfl,
    ofUnit_function, ofUnit_opening, show ofUnit standard "•" _ = _ from hmarker]

end Lexeme

namespace Formula

open Brackets (standard)
open Lexeme (Classifies classifies_unit)

variable {w w' : List Char} {ls ls' : List Lexeme}

/-- Wherever it stands, a part of a text is cut into the units of the lexemes. -/
structure Reads (w : List Char) (ls : List Lexeme) : Prop where
  merged : mergeSigns w = w
  cut : ∃ first last us u, Cut w first last us u ∧ Classifies (us ++ [u]) ls

theorem Cut.getLast_ne_minus {first last : Char} {us : List (List Char)} {u : List Char}
    (h : Cut w first last us u) : w.getLast? ≠ some '-' := by
  rw [h.getLast]
  rintro ⟨⟩
  simpa [operatorChars] using h.ends

theorem mergeSigns_eq_self (h : '-' ∉ w) : mergeSigns w = w := by
  induction w with
  | nil => rfl
  | cons c w ih =>
    rw [mergeSigns_cons (List.ne_of_not_mem_cons h).symm, ih (List.not_mem_of_not_mem_cons h)]

theorem not_isMark_of_chain {c d : Char} {v : List Char} (hc : isMark c = false)
    (hv : (c :: v).IsChain Continues) (hd : d ∈ c :: v) : isMark d = false := by
  induction v generalizing c with
  | nil =>
    obtain rfl := List.mem_singleton.mp hd
    exact hc
  | cons b v ih =>
    obtain ⟨hb, hv⟩ := List.isChain_cons_cons.mp hv
    rcases List.mem_cons.mp hd with rfl | hd
    · exact hc
    · exact ih hb.1 hv hd

namespace Reads

theorem operand {c : Char} {v : List Char} {l : Lexeme} (hc : isOperandChar c = true)
    (hv : (c :: v).IsChain Continues)
    (hl : ∀ following, Lexeme.ofUnit standard (String.ofList (c :: v)) following = l) :
    Reads (c :: v) [l] := by
  have hminus : '-' ∉ c :: v := by
    intro h
    have hmark := not_isMark_of_chain (not_isMark_of_isOperandChar hc) hv h
    revert hmark
    decide
  exact ⟨mergeSigns_eq_self hminus, _, _, _, _, Cut.operand hc hv, classifies_unit hl⟩

theorem bracketed (h : Reads w ls) :
    Reads (SymbolicAlgebra.bracketed w) (.opening "(" :: (ls ++ [.closing ")"])) := by
  obtain ⟨hmerged, first, last, us, u, hcut, hls⟩ := h
  refine ⟨?_, _, _, _, _, hcut.bracketed, ?_⟩
  · rw [SymbolicAlgebra.bracketed, List.cons_append, mergeSigns_cons (by decide),
      mergeSigns_append hcut.getLast_ne_minus, hmerged]
    rfl
  · have hopen := classifies_unit (u := ['(']) Lexeme.ofUnit_opening
    have hclose := classifies_unit (u := [')']) Lexeme.ofUnit_closing
    simpa using (hopen.append hls).append hclose

theorem call (f : Function) (h : Reads w ls) :
    Reads (f.name.toList ++ SymbolicAlgebra.bracketed w)
      (.function f :: .operator .juxtapose :: .opening "(" :: (ls ++ [.closing ")"])) := by
  obtain ⟨hmerged, first, last, us, u, hcut, hls⟩ := h
  obtain ⟨c, v, hname, hc, hv, hlast⟩ : ∃ c v, f.name.toList = c :: v ∧ isOperandChar c = true ∧
      (c :: v).IsChain Continues ∧ Text.isAlphanumeric ((c :: v).getLast (by simp)) = true := by
    cases f <;> exact ⟨_, _, rfl, by decide, by decide, by decide⟩
  have hcutName := Cut.operand hc hv
  refine ⟨?_, _, _, _, _,
    hname ▸ hcutName.juxtaposed hcut.bracketed (.inr ⟨rfl, hlast⟩), ?_⟩
  · have hminus : '-' ∉ f.name.toList := by cases f <;> decide
    have hend : f.name.toList.getLast? ≠ some '-' := fun h => hminus (List.mem_of_getLast? h)
    rw [mergeSigns_append hend, mergeSigns_eq_self hminus, SymbolicAlgebra.bracketed,
      List.cons_append, mergeSigns_cons (by decide), mergeSigns_append hcut.getLast_ne_minus,
      hmerged]
    rfl
  · have hclose := classifies_unit (u := [')']) Lexeme.ofUnit_closing
    simpa [hname] using ((Lexeme.classifies_function f).append hls).append hclose

/-- A part with a sign before it, where an operand is expected. -/
theorem signed (h : Reads w ls) (hw : w.head? ≠ some '-') :
    Reads ('-' :: w) (.operator .negate :: ls) := by
  obtain ⟨hmerged, first, last, us, u, hcut, hls⟩ := h
  refine ⟨by rw [mergeSigns_minus hw, hmerged], _, _, _, _, hcut.signed, ?_⟩
  exact (classifies_unit (u := ['~']) (Lexeme.ofUnit_symbol .negate)).append hls

theorem postfixed (h : Reads w ls) : Reads (w ++ ['!']) (ls ++ [.operator .factorial]) := by
  obtain ⟨hmerged, first, last, us, u, hcut, hls⟩ := h
  refine ⟨?_, _, _, _, _, hcut.postfixed, ?_⟩
  · rw [mergeSigns_append hcut.getLast_ne_minus, hmerged]
    rfl
  · exact hls.append (classifies_unit (u := ['!']) (Lexeme.ofUnit_symbol .factorial))

/-- Two parts with an operator or a separator between them. A minus must not come right after an
exclamation mark, where it would be a sign, nor right before a minus. -/
theorem joined (h : Reads w ls) (h' : Reads w' ls') {c : Char} {l : Lexeme}
    (hc : c ∈ operatorChars)
    (hl : ∀ following, Lexeme.ofUnit standard (String.ofList [c]) following = l)
    (hminus : c = '-' → w.getLast? ≠ some '!' ∧ w'.head? ≠ some '-') :
    Reads (w ++ c :: w') (ls ++ l :: ls') := by
  obtain ⟨hmerged, first, last, us, u, hcut, hls⟩ := h
  obtain ⟨hmerged', first', last', us', u', hcut', hls'⟩ := h'
  have hsign : c = '-' → last ≠ '!' := by
    rintro hc rfl
    exact (hminus hc).1 hcut.getLast
  refine ⟨?_, _, _, _, _, hcut.joined hcut' hc hsign, ?_⟩
  · have hright : mergeSigns (c :: w') = c :: w' := by
      by_cases hc' : c = '-'
      · rw [hc', mergeSigns_minus (hminus hc').2, hmerged']
      · rw [mergeSigns_cons hc', hmerged']
    rw [mergeSigns_append hcut.getLast_ne_minus, hmerged, hright]
  · simpa using (hls.append (classifies_unit hl)).append hls'

/-- Two parts side by side, the second of which begins with a letter or a bracket. -/
theorem juxtaposed (h : Reads w ls) (h' : Reads w' ls') {l c : Char} (hl : w.getLast? = some l)
    (hc : w'.head? = some c)
    (hlc : Text.isLetter c = true ∧ Text.isDigit l = true ∨
      c = '(' ∧ Text.isAlphanumeric l = true) :
    Reads (w ++ w') (ls ++ .operator .juxtapose :: ls') := by
  obtain ⟨hmerged, first, last, us, u, hcut, hls⟩ := h
  obtain ⟨hmerged', first', last', us', u', hcut', hls'⟩ := h'
  obtain rfl := Option.some.inj (hcut.getLast.symm.trans hl)
  obtain rfl := Option.some.inj (hcut'.head.symm.trans hc)
  refine ⟨?_, _, _, _, _, hcut.juxtaposed hcut' hlc, ?_⟩
  · rw [mergeSigns_append hcut.getLast_ne_minus, hmerged, hmerged']
  · have hmarker := classifies_unit (u := ['•']) (Lexeme.ofUnit_symbol .juxtapose)
    simpa using (hls.append hmarker).append hls'

end Reads

theorem isChain_name {c : Char} {index : List Char}
    (h : ∀ d ∈ index, Text.isDecimalDigit d = true) : (c :: '_' :: index).IsChain Continues := by
  have hrest : ∀ l, (l :: index).IsChain Continues := by
    induction index with
    | nil => simp
    | cons d index ih =>
      obtain ⟨hd, hindex⟩ := List.forall_mem_cons.mp h
      have hoperand : isOperandChar d = true := by
        simp [isOperandChar, Text.isAlphanumeric, Text.isDigit_of_isDecimalDigit hd]
      intro l
      refine List.isChain_cons_cons.mpr ⟨⟨not_isMark_of_isOperandChar hoperand, ?_⟩,
        ih hindex d⟩
      simp [Text.isLetter_of_isDecimalDigit hd]
  have hunderscore : isMark '_' = false ∧ Text.isLetter '_' = false := by decide
  exact List.isChain_cons_cons.mpr
    ⟨⟨hunderscore.1, by simp [hunderscore.2]⟩, hrest '_'⟩

def nameOperand (name : String) : Phrase .atom := .operand name (.variable name)

theorem reads_name {name : String} (h : Lexeme.IsName name) :
    Reads name.toList (nameOperand name).lexemes := by
  have hunit := Lexeme.ofUnit_variable h
  obtain ⟨c, rest, hname, hc, -, hrest⟩ := Lexeme.isVariable_cases h.1
  have hoperand : isOperandChar c = true := by simp [isOperandChar, hc]
  rw [hname]
  refine .operand hoperand ?_ ?_
  · rcases hrest with rfl | ⟨index, rfl, -, hdigits⟩
    · simp
    · exact isChain_name hdigits
  · rw [← hname, String.ofList_toList]
    exact hunit

theorem isBlank_of_mem_name {name : String} (h : Lexeme.IsName name) {d : Char}
    (hd : d ∈ name.toList) : Text.isBlank d = false := by
  obtain ⟨c, rest, hname, hc, -, hrest⟩ := Lexeme.isVariable_cases h.1
  rw [hname] at hd
  rcases List.mem_cons.mp hd with rfl | hd
  · exact Text.isBlank_of_isOperandChar (by simp [isOperandChar, hc])
  rcases hrest with rfl | ⟨index, rfl, -, hdigits⟩
  · simp at hd
  rcases List.mem_cons.mp hd with rfl | hd
  · decide
  · exact Text.isBlank_of_isOperandChar
      (by simp [isOperandChar, Text.isAlphanumeric, Text.isDigit_of_isDecimalDigit (hdigits d hd)])

def constantOperand (k : Constant) : Phrase .atom := .operand k.symbol (.constant k)

theorem reads_constant (k : Constant) : Reads k.symbol.toList (constantOperand k).lexemes := by
  obtain ⟨c, hname, hc⟩ : ∃ c, k.symbol.toList = [c] ∧ isOperandChar c = true := by
    cases k <;> exact ⟨_, rfl, by decide⟩
  rw [hname]
  refine .operand hc (by simp) ?_
  rw [← hname, String.ofList_toList]
  exact Lexeme.ofUnit_constant k

theorem parse_of_lexemes {b : Brackets} {text : String} {p : Phrase .sum}
    (h : Lexeme.ofUnits b (units b text) = p.lexemes) : parse b text = p.tree := by
  rw [parse, h, p.toPostfix_lexemes]
  exact p.build_postorder

/-- A text that reads as a phrase is parsed as its tree. -/
theorem Reads.parse {text : List Char} {p : Phrase .sum}
    (h : Reads (Text.withoutBlanks text) p.lexemes)
    (hhead : (Text.withoutBlanks text).head? ≠ some '-') :
    Formula.parse standard (String.ofList text) = p.tree := by
  obtain ⟨hmerged, first, last, us, u, hcut, hls⟩ := h
  have hfirst : first ≠ '-' := by
    rintro rfl
    exact hhead hcut.head
  apply parse_of_lexemes
  rw [units, String.toList_ofList, condensed, hmerged, hcut.unitsOfCondensed hfirst]
  simpa [Lexeme.ofUnits] using hls []

/-- The factor that a minus at the beginning of a text stands for. -/
def minusOne : Phrase .power := .unary (.atom (.operand "-1" .negativeOne))

/-- A text is parsed as the tree of a phrase that has a factor `-1` for the minus at its
beginning. -/
theorem Reads.parse_signed {text v : List Char} {p : Phrase .sum}
    (htext : Text.withoutBlanks text = '-' :: v) (h : Reads v ls) (hhead : v.head? ≠ some '-')
    (hp : p.lexemes = minusOne.lexemes ++ .operator .juxtapose :: ls) :
    Formula.parse standard (String.ofList text) = p.tree := by
  obtain ⟨hmerged, first, last, us, u, hcut, hls⟩ := h
  apply parse_of_lexemes
  have hone : Classifies [['-', '1']] minusOne.lexemes := 
    classifies_unit Lexeme.ofUnit_minusOne
  have hmarker := classifies_unit (u := ['•']) (Lexeme.ofUnit_symbol .juxtapose)
  have hall := ((hone.append hmarker).append hls) []
  rw [units, String.toList_ofList, condensed, htext, mergeSigns_minus hhead, hmerged,
    hcut.unitsOfCondensed_signed, hp]
  simpa [Lexeme.ofUnits] using hall

end Formula

end SymbolicAlgebra
