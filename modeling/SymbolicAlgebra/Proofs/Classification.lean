import Mathlib.Data.List.TakeWhile
import SymbolicAlgebra.Proofs.Rendering

/-!
# What lexemes look like

The unit of a lexeme, read off from the lexeme: `Stands` says for each kind of lexeme what unit it
has. Operands and the names of functions begin and end with characters of numbers and names, and a
unit that begins with any other character than these, an operator, a bracket or a marker is nothing
known. Brackets are the standard ones.
-/

namespace SymbolicAlgebra.Lexeme

open Brackets (standard)
open Formula (isOperandChar operatorChars)

/-- A unit, with the units after it, stands for a lexeme. -/
inductive Stands (unit : String) (following : List String) : Lexeme → Prop
  | operator (o : Operator) (h : unit = o.symbol) : Stands unit following (.operator o)
  | separator (h : unit = ",") : Stands unit following .separator
  | opening (h : standard.opens unit.toList = true) : Stands unit following (.opening unit)
  | closing (h : standard.closes unit.toList = true) : Stands unit following (.closing unit)
  | number (q : Rat) (h : numberValue? unit.toList = some q) :
      Stands unit following (.operand unit (.number (.exact q)))
  | function (f : Function) (h : unit = f.name) {bracket : String} {rest : List String}
      (hfollowing : following = "•" :: bracket :: rest)
      (hbracket : standard.opens bracket.toList = true) : Stands unit following (.function f)
  | constant (c : Constant) (h : Constant.ofName? unit = some c) :
      Stands unit following (.operand unit (.constant c))
  | name (h : isVariable unit.toList = true) :
      Stands unit following (.operand unit (.variable unit))
  | unknown : Stands unit following (.unknown unit)

theorem name_of_ofName? {name : String} {f : Function} (h : Function.ofName? name = some f) :
    name = f.name := by
  have hfound := List.find?_some h
  exact (of_decide_eq_true hfound).symm

theorem calledFunction?_eq_some {b : Brackets} {unit : String} {following : List String}
    {f : Function} (h : ofUnit.calledFunction? b unit following = some f) :
    unit = f.name ∧ ∃ bracket rest, following = "•" :: bracket :: rest ∧
      b.opens bracket.toList = true := by
  unfold ofUnit.calledFunction? at h
  split at h
  · next marker bracket rest =>
    split at h
    · next hcalled =>
      rw [Bool.and_eq_true, decide_eq_true_eq] at hcalled
      exact ⟨name_of_ofName? h, bracket, rest, by rw [hcalled.1]; rfl, hcalled.2⟩
    · cases h
  · cases h

theorem stands (unit : String) (following : List String) :
    Stands unit following (ofUnit standard unit following) := by
  unfold ofUnit
  split
  · next o ho =>
    refine .operator o ?_
    have hfound := List.find?_some ho
    exact (of_decide_eq_true hfound).symm
  split
  · next h => exact .separator h
  split
  · next h => exact .opening h
  split
  · next h => exact .closing h
  split
  · next q h => exact .number q h
  split
  · next f h =>
    obtain ⟨hname, bracket, rest, hfollowing, hbracket⟩ := calledFunction?_eq_some h
    exact .function f hname hfollowing hbracket
  split
  · next c h => exact .constant c h
  split
  · next h => exact .name h
  · exact .unknown

theorem isOperandChar_of_isDecimalDigit {c : Char} (h : Text.isDecimalDigit c = true) :
    isOperandChar c = true := by
  simp [isOperandChar, Text.isAlphanumeric, Text.isDigit_of_isDecimalDigit h]

theorem isOperandChar_of_mem_isNumber {c : Char} {v : List Char} (hc : c ≠ '-')
    (h : isNumber (c :: v) = true) : ∀ d ∈ c :: v, isOperandChar d = true := by
  have hdigits : ∀ d ∈ (c :: v).takeWhile Text.isDecimalDigit, isOperandChar d = true :=
    fun d hd => isOperandChar_of_isDecimalDigit (List.mem_takeWhile_imp hd)
  have hsplit := List.takeWhile_append_dropWhile (p := Text.isDecimalDigit) (l := c :: v)
  have hmagnitude : (if (c :: v).head? = some '-' then (c :: v).tail else c :: v) = c :: v := by
    simp [hc]
  simp only [isNumber, hmagnitude] at h
  rw [← hsplit]
  split at h
  · next hdrop => simpa [hdrop] using hdigits
  · next fraction hdrop =>
    rw [Bool.and_eq_true, List.all_eq_true] at h
    intro d hd
    rw [hdrop, List.mem_append, List.mem_cons] at hd
    rcases hd with hd | rfl | hd
    · exact hdigits d hd
    · rfl
    · exact isOperandChar_of_isDecimalDigit (h.1 d hd)
  · cases h

theorem isNumber_of_numberValue? {unit : List Char} {q : Rat} (h : numberValue? unit = some q) :
    isNumber unit = true := by
  unfold numberValue? at h
  split at h
  · next hnumber => exact hnumber
  · cases h

theorem isNumber_cases {unit : List Char} (h : isNumber unit = true) :
    ∃ c v, (unit = c :: v ∨ unit = '-' :: c :: v) ∧ ∀ d ∈ c :: v, isOperandChar d = true := by
  cases unit with
  | nil => cases h
  | cons c v =>
    by_cases hc : c = '-'
    · subst hc
      cases v with
      | nil => cases h
      | cons d w =>
        have hd : d ≠ '-' := by
          rintro rfl
          cases h
        refine ⟨d, w, .inr rfl, isOperandChar_of_mem_isNumber hd ?_⟩
        simpa [isNumber, hd] using h
    · exact ⟨c, v, .inl rfl, isOperandChar_of_mem_isNumber hc h⟩

/-- The characters with which an operand begins and ends. -/
structure IsOperandLike (unit : List Char) : Prop where
  begins : ∃ c v, (unit = c :: v ∨ unit = '-' :: c :: v) ∧ isOperandChar c = true
  ends : ∃ c, unit.getLast? = some c ∧ isOperandChar c = true

theorem isOperandLike_of_forall {c : Char} {v : List Char} {unit : List Char}
    (hunit : unit = c :: v ∨ unit = '-' :: c :: v) (h : ∀ d ∈ c :: v, isOperandChar d = true) :
    IsOperandLike unit := by
  refine ⟨⟨c, v, hunit, h c List.mem_cons_self⟩, (c :: v).getLast (by simp), ?_,
    h _ (List.getLast_mem _)⟩
  rcases hunit with rfl | rfl
  · exact List.getLast?_eq_some_getLast _
  · rw [List.getLast?_cons_cons]
    exact List.getLast?_eq_some_getLast _

theorem isOperandLike_function (f : Function) : IsOperandLike f.name.toList := by
  obtain ⟨c, v, hname, hchars⟩ :
      ∃ c v, f.name.toList = c :: v ∧ (c :: v).all isOperandChar = true := by
    cases f <;> exact ⟨_, _, rfl, by decide⟩
  exact isOperandLike_of_forall (.inl hname) (List.all_eq_true.mp hchars)

theorem isOperandLike_constant {name : String} {k : Constant} (h : Constant.ofName? name = some k) :
    IsOperandLike name.toList := by
  have hname : name = "pi" ∨ name = "π" ∨ name = "e" := by
    unfold Constant.ofName? at h
    split at h
    · next hpi => exact hpi.imp_right .inl
    · split at h
      · next he => exact .inr (.inr he)
      · cases h
  obtain ⟨c, v, hname, hchars⟩ :
      ∃ c v, name.toList = c :: v ∧ (c :: v).all isOperandChar = true := by
    rcases hname with rfl | rfl | rfl <;> exact ⟨_, _, rfl, by decide⟩
  exact isOperandLike_of_forall (.inl hname) (List.all_eq_true.mp hchars)

theorem isOperandLike_variable {name : List Char} (h : isVariable name = true) :
    IsOperandLike name := by
  obtain ⟨c, rest, rfl, hc, -, hrest⟩ := isVariable_cases h
  have hchar : isOperandChar c = true := by simp [isOperandChar, hc]
  refine ⟨⟨c, rest, .inl rfl, hchar⟩, ?_⟩
  rcases hrest with rfl | ⟨index, rfl, hne, hdigits⟩
  · exact ⟨c, rfl, hchar⟩
  · refine ⟨index.getLast hne, ?_, isOperandChar_of_isDecimalDigit (hdigits _ (List.getLast_mem hne))⟩
    rw [List.getLast?_cons_cons, List.getLast?_cons_of_ne_nil hne, List.getLast?_eq_some_getLast hne]

variable {unit : String} {following : List String}

theorem isOperandLike_of_operand {text : String} {t : Tree}
    (h : ofUnit standard unit following = operand text t) : IsOperandLike unit.toList := by
  have hstands := stands unit following
  rw [h] at hstands
  cases hstands with
  | number q hq =>
    obtain ⟨c, v, hunit, hchars⟩ := isNumber_cases (isNumber_of_numberValue? hq)
    exact isOperandLike_of_forall hunit hchars
  | constant k hk => exact isOperandLike_constant hk
  | name hname => exact isOperandLike_variable hname

theorem isOperandLike_of_function {f : Function}
    (h : ofUnit standard unit following = function f) : IsOperandLike unit.toList := by
  have hstands := stands unit following
  rw [h] at hstands
  cases hstands with
  | function _ hname => exact hname ▸ isOperandLike_function f

theorem place?_cons (c : Char) (v : List Char) :
    standard.place? (c :: v) =
      if c = '(' ∧ (v = [] ∨ v = [')']) then some 0 else if c = ')' ∧ v = [] then some 1 else none := by
  cases v with
  | nil =>
    rw [Formula.standard_place?]
    simp
  | cons d w =>
    cases w with
    | nil => 
      simp [Brackets.place?, standard, Text.CodePoint.ofChars, Brackets.find?]
    | cons e w => simp [Brackets.place?, standard, Text.CodePoint.ofChars, Brackets.find?]

theorem opens_cons {c : Char} {v : List Char} (h : standard.opens (c :: v) = true) : c = '(' := by
  rw [Brackets.opens, place?_cons] at h
  split at h
  · next hc => exact hc.1
  · split at h <;> simp at h

theorem closes_cons {c : Char} {v : List Char} (h : standard.closes (c :: v) = true) :
    c = ')' ∧ v = [] := by
  rw [Brackets.closes, place?_cons] at h
  split at h
  · simp at h
  · split at h
    · next hc => exact hc
    · simp at h

theorem eq_symbol_of_operator {o : Operator} (h : ofUnit standard unit following = operator o) :
    unit = o.symbol := by
  have hstands := stands unit following
  rw [h] at hstands
  cases hstands with
  | operator _ hsymbol => exact hsymbol

theorem eq_comma_of_separator (h : ofUnit standard unit following = separator) : unit = "," := by
  have hstands := stands unit following
  rw [h] at hstands
  cases hstands with
  | separator hcomma => exact hcomma

theorem opens_of_opening {text : String} (h : ofUnit standard unit following = opening text) :
    unit = text ∧ standard.opens unit.toList = true := by
  have hstands := stands unit following
  rw [h] at hstands
  cases hstands with
  | opening hopens => exact ⟨rfl, hopens⟩

theorem closes_of_closing {text : String} (h : ofUnit standard unit following = closing text) :
    unit = text ∧ standard.closes unit.toList = true := by
  have hstands := stands unit following
  rw [h] at hstands
  cases hstands with
  | closing hcloses => exact ⟨rfl, hcloses⟩

theorem following_of_function {f : Function} (h : ofUnit standard unit following = function f) :
    ∃ bracket rest, following = "•" :: bracket :: rest ∧ standard.opens bracket.toList = true := by
  have hstands := stands unit following
  rw [h] at hstands
  cases hstands with
  | function _ _ hfollowing hbracket => exact ⟨_, _, hfollowing, hbracket⟩

theorem ofUnit_unknown {c : Char} {v : List Char} (hunit : unit.toList = c :: v)
    (hoperand : isOperandChar c = false) (hmark : Formula.isMark c = false)
    (hnegation : c ≠ Operator.negation) (hjuxtaposition : c ≠ Operator.juxtaposition) :
    ofUnit standard unit following = unknown unit := by
  have hnot := Formula.not_isMark_iff.mp hmark
  have hchars : ¬ IsOperandLike unit.toList := by
    rintro ⟨⟨d, w, hbegins, hd⟩, -⟩
    rw [hunit] at hbegins
    rcases hbegins with h | h <;> obtain ⟨rfl, -⟩ := List.cons.inj h
    · simp [hd] at hoperand
    · exact hnot.1 (by decide)
  cases hlexeme : ofUnit standard unit following with
  | operand text t => exact absurd (isOperandLike_of_operand hlexeme) hchars
  | function f => exact absurd (isOperandLike_of_function hlexeme) hchars
  | operator o =>
    have hsymbol := congrArg String.toList (eq_symbol_of_operator hlexeme)
    rw [hunit, Operator.symbol, String.toList_singleton] at hsymbol
    obtain ⟨rfl, -⟩ := List.cons.inj hsymbol
    cases o with
    | juxtapose => exact absurd rfl hjuxtaposition
    | negate => exact absurd rfl hnegation
    | _ => exact absurd (by decide) hnot.1
  | opening text =>
    have hopens := (opens_of_opening hlexeme).2
    rw [hunit] at hopens
    exact absurd (opens_cons hopens) hnot.2.1
  | closing text =>
    have hcloses := (closes_of_closing hlexeme).2
    rw [hunit] at hcloses
    exact absurd (closes_cons hcloses).1 hnot.2.2
  | separator =>
    have hcomma := congrArg String.toList (eq_comma_of_separator hlexeme)
    rw [hunit] at hcomma
    obtain ⟨rfl, -⟩ := List.cons.inj hcomma
    exact absurd (by decide) hnot.1
  | unknown text =>
    have hstands := stands unit following
    rw [hlexeme] at hstands
    cases hstands
    rfl

theorem ofUnit_of_opens (h : standard.opens unit.toList = true) :
    ofUnit standard unit following = opening unit := by
  have hsymbol : Operator.ofSymbol? unit = none := by
    rw [Operator.ofSymbol?, List.find?_eq_none]
    intro o _ ho
    rw [← of_decide_eq_true ho, Operator.symbol, String.toList_singleton] at h
    have ho := opens_cons h
    cases o <;> exact absurd ho (by decide)
  have hcomma : unit ≠ "," := by
    rintro rfl
    revert h
    decide
  simp [ofUnit, hsymbol, hcomma, h]

/-- Every function stands before the marker of a product and an opening bracket. -/
def HasCalls : List Lexeme → Prop
  | [] => True
  | function _ :: rest => (∃ o ls, rest = operator .juxtapose :: opening o :: ls) ∧ HasCalls rest
  | _ :: rest => HasCalls rest

theorem hasCalls_ofUnits (units : List String) : HasCalls (ofUnits standard units) := by
  induction units with
  | nil => trivial
  | cons unit rest ih =>
    rw [ofUnits]
    cases hlexeme : ofUnit standard unit rest with
    | function f =>
      obtain ⟨bracket, following, rfl, hbracket⟩ := following_of_function hlexeme
      refine ⟨⟨bracket, ofUnits standard following, ?_⟩, ih⟩
      rw [ofUnits, ofUnits, ofUnit_of_opens hbracket]
      exact congrArg (· :: _) (ofUnit_symbol .juxtapose _)
    | _ => exact ih

end SymbolicAlgebra.Lexeme
