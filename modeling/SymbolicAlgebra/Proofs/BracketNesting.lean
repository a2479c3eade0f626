import SymbolicAlgebra.Proofs.Balance
import SymbolicAlgebra.Proofs.Lossless
import SymbolicAlgebra.Settings.Basic

/-!
# Brackets of a text that is read

Brackets may be any characters that are no blanks, no characters of numbers and names, no operators
and no markers. Such a character always begins a unit, and a unit that is more than the bracket is
nothing known. So the brackets of a text that is read as a tree stand in its units one by one, and
they are nested as its lexemes are: every closing bracket closes the innermost open one, and none
stays open. The two need not be of one pair, unless there is only one.
-/

namespace SymbolicAlgebra

open Outcome Formula

/-- A character that can serve as a bracket. -/
structure CanBracket (c : Char) : Prop where
  not_isBlank : Text.isBlank c = false
  not_isOperandChar : isOperandChar c = false
  not_mem_operatorChars : c ∉ operatorChars
  ne_juxtaposition : c ≠ Operator.juxtaposition
  ne_negation : c ≠ Operator.negation

theorem canBracket_iff {c : Char} :
    CanBracket c ↔ Text.isBlank c = false ∧ isOperandChar c = false ∧ c ∉ operatorChars ∧
      c ≠ Operator.juxtaposition ∧ c ≠ Operator.negation := by
  constructor
  · intro h
    exact ⟨h.1, h.2, h.3, h.4, h.5⟩
  · rintro ⟨hblank, hoperand, hoperator, hjuxtaposition, hnegation⟩
    exact ⟨hblank, hoperand, hoperator, hjuxtaposition, hnegation⟩

instance (c : Char) : Decidable (CanBracket c) := decidable_of_iff _ canBracket_iff.symm

namespace CanBracket

variable {c : Char}

theorem not_isAlphanumeric (h : CanBracket c) : Text.isAlphanumeric c = false := by
  have hoperand := h.not_isOperandChar
  rw [isOperandChar, Bool.or_eq_false_iff] at hoperand
  exact hoperand.1

theorem not_isLetter (h : CanBracket c) : Text.isLetter c = false := by
  have halphanumeric := h.not_isAlphanumeric
  simp only [Text.isAlphanumeric, Bool.or_eq_false_iff] at halphanumeric
  exact halphanumeric.1.1

theorem not_isDigit (h : CanBracket c) : Text.isDigit c = false := by
  have halphanumeric := h.not_isAlphanumeric
  simp only [Text.isAlphanumeric, Bool.or_eq_false_iff] at halphanumeric
  exact halphanumeric.1.2

theorem not_contains_operatorChars (h : CanBracket c) : operatorChars.contains c = false := by
  rw [Bool.eq_false_iff, ne_eq, List.contains_iff_mem]
  exact h.not_mem_operatorChars

theorem ne_minus (h : CanBracket c) : c ≠ '-' := by
  rintro rfl
  exact h.not_mem_operatorChars (by decide)

theorem ne_plus (h : CanBracket c) : c ≠ '+' := by
  rintro rfl
  exact h.not_mem_operatorChars (by decide)

theorem not_mem_addedChars (h : CanBracket c) : c ∉ addedChars := by
  intro hmem
  simp only [addedChars, List.mem_cons, List.not_mem_nil, or_false] at hmem
  rcases hmem with rfl | rfl | rfl | rfl | rfl
  · exact h.not_mem_operatorChars (by decide)
  · exact h.ne_juxtaposition rfl
  · exact h.ne_negation rfl
  · exact h.ne_minus rfl
  · exact absurd h.not_isOperandChar (by decide)

end CanBracket

namespace Brackets

variable {b : Brackets} {c : Char}

/-- All characters among the brackets can serve as such. -/
def IsProper (b : Brackets) : Prop := ∀ c, b.hasChar c = true → CanBracket c

theorem IsProper.hasChar_eq_false (hb : b.IsProper) (hc : ¬ CanBracket c) :
    b.hasChar c = false := by
  rw [Bool.eq_false_iff]
  exact fun h => hc (hb c h)

theorem hasChar_of_closes {u : List Char} (h : b.closes u = true) :
    ∀ c ∈ u, b.hasChar c = true := by
  cases hplace : b.place? u with
  | none => simp [closes, hplace] at h
  | some i => exact hasChar_of_find? hplace

theorem isProper_ofChars {chars : List Char} (h : ∀ c ∈ chars, CanBracket c) :
    IsProper (Text.CodePoint.ofChars chars) := by
  intro c hc
  rw [hasChar, List.contains_iff_mem, Text.CodePoint.ofChars, List.mem_map] at hc
  obtain ⟨d, hd, hchar⟩ := hc
  exact Text.CodePoint.char_injective hchar ▸ h d hd

theorem not_closes_of_opens {u : List Char} (h : b.opens u = true) : b.closes u = false := by
  cases hplace : b.place? u with
  | none => simp [closes, hplace]
  | some i =>
    have heven : i % 2 = 0 := by simpa [opens, hplace] using h
    simp [closes, hplace, heven]

theorem opens_or_closes (h : b.hasChar c = true) : b.opens [c] = true ∨ b.closes [c] = true := by
  have hfind : ∀ b : Brackets, b.hasChar c = true → ∃ i, b.place? [c] = some i := by
    intro b
    induction b with
    | nil => simp [hasChar]
    | cons d b ih =>
      intro hchar
      by_cases hd : Text.CodePoint.char c = d
      · exact ⟨0, by simp [place?, find?, Text.CodePoint.ofChars, hd]⟩
      · obtain ⟨i, hi⟩ := ih (by simpa [hasChar, hd] using hchar)
        refine ⟨i + 1, ?_⟩
        rw [place?] at hi
        simp only [Text.CodePoint.ofChars, List.map_cons, List.map_nil] at hi
        simp [place?, find?, Text.CodePoint.ofChars, hd, hi]
  obtain ⟨i, hi⟩ := hfind b h
  rcases Nat.mod_two_eq_zero_or_one i with heven | hodd
  · exact .inl (by simp [opens, hi, heven])
  · exact .inr (by simp [closes, hi, hodd])

end Brackets

namespace Lexeme

variable {b : Brackets} {unit : String} {following : List String} {c : Char} {v : List Char}

/-- A unit that begins with a character that can be a bracket is a bracket or nothing known. -/
theorem ofUnit_of_canBracket (hc : CanBracket c) (hunit : unit.toList = c :: v) :
    ofUnit b unit following =
      if b.opens unit.toList then opening unit
      else if b.closes unit.toList then closing unit else unknown unit := by
  have hoperand : ¬ IsOperandLike unit.toList := by
    rintro ⟨⟨d, w, hbegins, hd⟩, -⟩
    rw [hunit] at hbegins
    rcases hbegins with h | h
    · obtain ⟨rfl, -⟩ := List.cons.inj h
      simp [hc.not_isOperandChar] at hd
    · obtain ⟨rfl, -⟩ := List.cons.inj h
      exact hc.not_mem_operatorChars (by decide)
  have hsymbol : Operator.ofSymbol? unit = none := by
    rw [Operator.ofSymbol?, List.find?_eq_none]
    intro o _ ho
    have hchars := congrArg String.toList (of_decide_eq_true ho)
    rw [hunit, Operator.symbol, String.toList_singleton] at hchars
    obtain ⟨rfl, -⟩ := List.cons.inj hchars
    cases o with
    | juxtapose => exact hc.ne_juxtaposition rfl
    | negate => exact hc.ne_negation rfl
    | _ => exact hc.not_mem_operatorChars (by decide)
  have hcomma : unit ≠ "," := by
    rintro rfl
    obtain ⟨rfl, -⟩ := List.cons.inj hunit
    exact hc.not_mem_operatorChars (by decide)
  have hnumber : numberValue? unit.toList = none := by
    cases hvalue : numberValue? unit.toList with
    | none => rfl
    | some q =>
      obtain ⟨d, w, hbegins, hchars⟩ := isNumber_cases (isNumber_of_numberValue? hvalue)
      exact absurd (isOperandLike_of_forall hbegins hchars) hoperand
  have hfunction : ofUnit.calledFunction? b unit following = none := by
    have hname : Function.ofName? unit = none := by
      cases hname : Function.ofName? unit with
      | none => rfl
      | some f => exact absurd (name_of_ofName? hname ▸ isOperandLike_function f) hoperand
    exact calledFunction?_of_not_name b hname following
  have hconstant : Constant.ofName? unit = none := by
    cases hname : Constant.ofName? unit with
    | none => rfl
    | some k => exact absurd (isOperandLike_constant hname) hoperand
  have hvariable : isVariable unit.toList = false := by
    cases hname : isVariable unit.toList with
    | false => rfl
    | true => exact absurd (isOperandLike_variable hname) hoperand
  simp only [ofUnit, hsymbol, hcomma, hnumber, hfunction, hconstant, hvariable, if_false,
    Bool.false_eq_true]

theorem ofUnit_of_not_bracket (hopens : b.opens unit.toList = false)
    (hcloses : b.closes unit.toList = false) :
    (ofUnit b unit following).isOpening = false ∧ (ofUnit b unit following).isClosing = false := by
  rcases ofUnit_cases b unit following with ⟨o, h, -⟩ | ⟨h, -⟩ | ⟨-, h⟩ | ⟨-, h⟩ | ⟨value, h⟩ |
    ⟨f, h, -⟩ | h
  · exact h ▸ ⟨rfl, rfl⟩
  · exact h ▸ ⟨rfl, rfl⟩
  · simp [hopens] at h
  · simp [hcloses] at h
  · exact h ▸ ⟨rfl, rfl⟩
  · exact h ▸ ⟨rfl, rfl⟩
  · exact h ▸ ⟨rfl, rfl⟩

theorem openAfter_cons_of_not_bracket {l : Lexeme} (hopening : l.isOpening = false)
    (hclosing : l.isClosing = false) (ls : List Lexeme) (opened : List String) :
    openAfter (l :: ls) opened = openAfter ls opened := by
  cases l with
  | opening text => cases hopening
  | closing text => cases hclosing
  | _ => rfl

end Lexeme

/-- The brackets of a text are nested, after some that are open, the innermost first: a closing
bracket closes the innermost open one, to which it must be related, and none stays open. -/
def Nested (b : Brackets) (R : Char → Char → Prop) : List Char → List Char → Prop
  | [], opened => opened = []
  | c :: w, opened =>
    if b.opens [c] then Nested b R w (c :: opened)
    else if b.closes [c] then ∃ o rest, opened = o :: rest ∧ R o c ∧ Nested b R w rest
    else Nested b R w opened

/-- The closing bracket stands right after the opening one among the brackets, both of a pair. -/
def IsPartner (b : Brackets) (o c : Char) : Prop :=
  ∃ pairs rest, b = pairs ++ .char o :: .char c :: rest ∧ pairs.length % 2 = 0

section

variable {b : Brackets} {R : Char → Char → Prop} {c : Char} {w opened : List Char}

theorem nested_cons_of_not_hasChar (h : b.hasChar c = false) :
    Nested b R (c :: w) opened ↔ Nested b R w opened := by
  have hopens : ¬ b.opens [c] = true := by
    intro hopens
    simp [hasChar_of_opens hopens c] at h
  have hcloses : ¬ b.closes [c] = true := by
    intro hcloses
    simp [Brackets.hasChar_of_closes hcloses c] at h
  rw [Nested, if_neg hopens, if_neg hcloses]

theorem nested_filter : Nested b R (w.filter b.hasChar) opened ↔ Nested b R w opened := by
  induction w generalizing opened with
  | nil => rfl
  | cons c w ih =>
    by_cases hc : b.hasChar c = true
    · rw [List.filter_cons_of_pos hc, Nested, Nested]
      simp only [ih]
    · rw [List.filter_cons_of_neg hc, ih, nested_cons_of_not_hasChar (by simpa using hc)]

theorem nested_append_of_not_hasChar {u : List Char} (h : ∀ c ∈ u, b.hasChar c = false) :
    Nested b R (u ++ w) opened ↔ Nested b R w opened := by
  induction u with
  | nil => rfl
  | cons c u ih =>
    obtain ⟨hc, hu⟩ := List.forall_mem_cons.mp h
    rw [List.cons_append, nested_cons_of_not_hasChar hc, ih hu]

end

/-- A unit in which nothing but the first character can be a bracket. -/
def IsHeaded (b : Brackets) (u : List Char) : Prop :=
  ∃ c v, u = c :: v ∧ ∀ d ∈ v, b.hasChar d = false

theorem isHeaded_unitsOfCondensed {b : Brackets} (hb : b.IsProper) (w : List Char) :
    ∀ u ∈ unitsOfCondensed b w, IsHeaded b u := by
  apply unitsOfCondensed_induction
  · intro m
    exact ⟨m, [], rfl, by simp⟩
  · refine ⟨'-', ['1'], rfl, ?_⟩
    intro d hd
    obtain rfl := List.mem_singleton.mp hd
    by_contra hchar
    have hone := (hb '1' (by simpa using hchar)).not_isOperandChar
    revert hone
    decide
  · rintro _ c ⟨m, v, rfl, hv⟩ hc
    refine ⟨m, v ++ [c], rfl, ?_⟩
    intro d hd
    rcases List.mem_append.mp hd with hd | hd
    · exact hv d hd
    · rwa [List.mem_singleton.mp hd]

namespace Lexeme

variable {b : Brackets} {c : Char} {v : List Char}

theorem ofUnit_eq_opening (hb : b.IsProper) (h : b.opens (c :: v) = true)
    (following : List String) :
    ofUnit b (String.ofList (c :: v)) following = opening (String.ofList (c :: v)) := by
  have hc := hb c (hasChar_of_opens h c List.mem_cons_self)
  rw [ofUnit_of_canBracket hc String.toList_ofList, String.toList_ofList, if_pos h]

theorem ofUnit_eq_closing (hb : b.IsProper) (h : b.closes (c :: v) = true)
    (following : List String) :
    ofUnit b (String.ofList (c :: v)) following = closing (String.ofList (c :: v)) := by
  have hc := hb c (Brackets.hasChar_of_closes h c List.mem_cons_self)
  have hopens : ¬ b.opens (c :: v) = true := by
    intro hopens
    rw [Brackets.not_closes_of_opens hopens] at h
    cases h
  rw [ofUnit_of_canBracket hc String.toList_ofList, String.toList_ofList, if_neg hopens, if_pos h]

theorem ofUnit_eq_unknown (hb : b.IsProper) (hc : b.hasChar c = true)
    (hv : ∀ d ∈ v, b.hasChar d = false) (hne : v ≠ []) (following : List String) :
    ofUnit b (String.ofList (c :: v)) following = unknown (String.ofList (c :: v)) := by
  obtain ⟨d, v, rfl⟩ := List.exists_cons_of_ne_nil hne
  have hd : ¬ b.hasChar d = true := by simp [hv d List.mem_cons_self]
  have hopens : ¬ b.opens (c :: d :: v) = true := fun h => hd (hasChar_of_opens h d (by simp))
  have hcloses : ¬ b.closes (c :: d :: v) = true :=
    fun h => hd (Brackets.hasChar_of_closes h d (by simp))
  rw [ofUnit_of_canBracket (hb c hc) String.toList_ofList, String.toList_ofList, if_neg hopens,
    if_neg hcloses]

theorem ofUnit_of_not_hasChar (hc : b.hasChar c = false) (following : List String) :
    (ofUnit b (String.ofList (c :: v)) following).isOpening = false ∧
      (ofUnit b (String.ofList (c :: v)) following).isClosing = false := by
  have hc' : ¬ b.hasChar c = true := by simp [hc]
  apply ofUnit_of_not_bracket
  · rw [String.toList_ofList, Bool.eq_false_iff]
    exact fun h => hc' (hasChar_of_opens h c List.mem_cons_self)
  · rw [String.toList_ofList, Bool.eq_false_iff]
    exact fun h => hc' (Brackets.hasChar_of_closes h c List.mem_cons_self)

end Lexeme

/-- Where the lexemes of units leave no bracket open and nothing is unknown, the characters of the
units are nested. -/
theorem nested_of_openAfter {b : Brackets} (hb : b.IsProper) {R : Char → Char → Prop}
    (hR : ∀ o c, b.opens [o] = true → b.closes [c] = true → R o c) {us : List (List Char)}
    (hus : ∀ u ∈ us, IsHeaded b u) {opened : List Char} (hopened : ∀ o ∈ opened, b.opens [o] = true)
    {texts : List String} (hlength : texts.length = opened.length)
    (hknown : ∀ text, Lexeme.unknown text ∉ Lexeme.ofUnits b (us.map String.ofList))
    (h : Lexeme.openAfter (Lexeme.ofUnits b (us.map String.ofList)) texts = .ok []) :
    Nested b R us.flatten opened := by
  induction us generalizing opened texts with
  | nil =>
    obtain rfl := Except.ok.inj h
    exact List.length_eq_zero_iff.mp hlength.symm
  | cons u us ih =>
    obtain ⟨⟨c, v, rfl, hv⟩, hlater⟩ := List.forall_mem_cons.mp hus
    rw [List.map_cons, Lexeme.ofUnits] at h hknown
    have hrest : ∀ text, Lexeme.unknown text ∉ Lexeme.ofUnits b (us.map String.ofList) :=
      fun text hmem => hknown text (List.mem_cons_of_mem _ hmem)
    rw [List.flatten_cons]
    by_cases hchar : b.hasChar c = true
    · have hnil : v = [] := by
        by_contra hne
        rw [Lexeme.ofUnit_eq_unknown hb hchar hv hne] at hknown
        exact hknown _ List.mem_cons_self
      subst hnil
      rw [List.singleton_append, Nested]
      rcases Brackets.opens_or_closes hchar with hopens | hcloses
      · rw [Lexeme.ofUnit_eq_opening hb hopens] at h
        rw [if_pos hopens]
        apply ih hlater (List.forall_mem_cons.mpr ⟨hopens, hopened⟩) _ hrest h
        rw [List.length_cons, List.length_cons, hlength]
      · have hopens : ¬ b.opens [c] = true := by
          intro hopens
          rw [Brackets.not_closes_of_opens hopens] at hcloses
          cases hcloses
        rw [Lexeme.ofUnit_eq_closing hb hcloses] at h
        rw [if_neg hopens, if_pos hcloses]
        cases texts with
        | nil => cases h
        | cons text texts =>
          obtain ⟨o, opened, rfl⟩ := List.exists_cons_of_length_eq_add_one hlength.symm
          obtain ⟨ho, hopened⟩ := List.forall_mem_cons.mp hopened
          exact ⟨o, opened, rfl, hR o c ho hcloses,
            ih hlater hopened (by simpa using hlength) hrest h⟩
    · rw [Bool.not_eq_true] at hchar
      obtain ⟨hopening, hclosing⟩ :=
        Lexeme.ofUnit_of_not_hasChar (v := v) hchar (us.map String.ofList)
      rw [Lexeme.openAfter_cons_of_not_bracket hopening hclosing] at h
      rw [nested_append_of_not_hasChar (List.forall_mem_cons.mpr ⟨hchar, hv⟩)]
      exact ih hlater hopened hlength hrest h

theorem lexemes_of_parse {b : Brackets} {text : String} {t : Tree} (h : parse b text = .ok t) :
    Lexeme.openAfter (Lexeme.ofUnits b (units b text)) [] = .ok [] ∧
      ∀ unit, Lexeme.unknown unit ∉ Lexeme.ofUnits b (units b text) := by
  obtain ⟨p, hp, hbuild⟩ := bind_eq_ok.mp h
  have hmarks := Lexeme.marksCalls_ofUnits b (units b text)
  constructor
  · have hends : Lexeme.EndsAs (Lexeme.toPostfix (Lexeme.ofUnits b (units b text)))
        (Lexeme.openAfter (Lexeme.ofUnits b (units b text)) []) := Lexeme.shunt_endsAs hmarks [] []
    rw [hp] at hends
    revert hends
    cases Lexeme.openAfter (Lexeme.ofUnits b (units b text)) [] with
    | error unit => intro hends; cases hends
    | ok opened =>
      cases opened with
      | nil => intro; rfl
      | cons unit opened => intro hends; cases hends
  · intro unit hunit
    have hplain := Lexeme.filter_isPlain_of_toPostfix hmarks hp
    have hmem : Lexeme.unknown unit ∈ p.filter Lexeme.isPlain := by
      rw [hplain]
      exact List.mem_filter.mpr ⟨hunit, rfl⟩
    exact (Lexeme.gain_of_build hbuild).1 _ (List.mem_of_mem_filter hmem)

theorem isPartner_of_single {b : Brackets} (hlength : b.length = 2) {o c : Char}
    (ho : b.opens [o] = true) (hc : b.closes [c] = true) : IsPartner b o c := by
  obtain ⟨x, y, rfl⟩ := List.length_eq_two.mp hlength
  have hplace : ∀ d : Char, Brackets.place? [x, y] [d] =
      if .char d = x then some 0 else if .char d = y then some 1 else none := by
    intro d
    simp only [Brackets.place?, Brackets.find?, Text.CodePoint.ofChars, List.map_cons, List.map_nil,
      List.isPrefixOf_cons_cons, List.isPrefixOf_nil_left, Bool.and_true, beq_iff_eq,
      List.isEmpty_cons]
    split_ifs <;> simp_all
  have hx : x = .char o := by
    by_contra hx
    rw [Brackets.opens, hplace, if_neg (Ne.symm hx)] at ho
    split_ifs at ho <;> simp at ho
  have hy : y = .char c := by
    by_contra hy
    rw [Brackets.closes, hplace, if_neg (Ne.symm hy)] at hc
    split_ifs at hc <;> simp at hc
  exact ⟨[], [], by rw [hx, hy]; rfl, rfl⟩

/-- The brackets of a text that is read are nested. Any closing bracket may close any opening one;
with one pair of brackets they are partners. -/
theorem Settings.nested_of_parse {s : Settings} {b : Brackets} (hs : s.brackets = .string b)
    (hb : b.IsProper) {text : String} {t : Tree} (h : s.parse text = .ok t) :
    Nested b (fun o c => b.opens [o] = true ∧ b.closes [c] = true) text.toList [] ∧
      (b.length = 2 → Nested b (IsPartner b) text.toList []) := by
  have hparse : Formula.parse b text = .ok t := by
    rw [Settings.parse, hs] at h
    exact h
  obtain ⟨hopen, hknown⟩ := lexemes_of_parse hparse
  have hadded : ∀ c ∈ addedChars, b.hasChar c = false :=
    fun c hc => hb.hasChar_eq_false fun h => h.not_mem_addedChars hc
  have hfilter : (unitsOfCondensed b (condensed text.toList)).flatten.filter b.hasChar =
      text.toList.filter b.hasChar := by
    rw [filter_unitsOfCondensed hadded, filter_condensed]
    · exact hb.hasChar_eq_false fun h => h.ne_minus rfl
    · exact hb.hasChar_eq_false fun h => h.ne_plus rfl
    · exact fun c hc => (hb c hc).not_isBlank
  have hnested : ∀ R : Char → Char → Prop,
      (∀ o c, b.opens [o] = true → b.closes [c] = true → R o c) → Nested b R text.toList [] := by
    intro R hR
    rw [← nested_filter, ← hfilter, nested_filter]
    exact nested_of_openAfter hb hR (isHeaded_unitsOfCondensed hb _) (by simp) rfl hknown hopen
  exact ⟨hnested _ fun o c ho hc => ⟨ho, hc⟩,
    fun hlength => hnested _ fun o c => isPartner_of_single hlength⟩

/-- Two pairs of brackets that cross each other. -/
theorem Settings.nested_of_parse_of_crossed :
    let b : Brackets := [.char '(', .char ')', .char '[', .char ']']
    let s : Settings := { brackets := .string b }
    b.IsProper ∧ s.parse "([x)]" = .ok (.variable "x") ∧
      Nested b (fun o c => b.opens [o] = true ∧ b.closes [c] = true) "([x)]".toList [] := by
  intro b s
  have hchars : ∀ c ∈ ['(', ')', '[', ']'], CanBracket c := by
    intro c hc
    simp only [List.mem_cons, List.not_mem_nil, or_false] at hc
    rcases hc with rfl | rfl | rfl | rfl
    all_goals decide
  have hb : b.IsProper := Brackets.isProper_ofChars hchars
  have hparse : Formula.parse [.char '(', .char ')', .char '[', .char ']'] "([x)]" =
      .ok (.variable "x") := by cbv
  exact ⟨hb, hparse, (Settings.nested_of_parse (s := s) rfl hb hparse).1⟩

end SymbolicAlgebra
