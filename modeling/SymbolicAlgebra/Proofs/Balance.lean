import SymbolicAlgebra.Proofs.Classification
import SymbolicAlgebra.Proofs.PostfixOrder

/-!
# Unmatched brackets

Lexemes come into postfix order unless their brackets do not match. Which bracket is to blame is
told by a pass that does nothing but keep the opening brackets that are still open, `openAfter`; the
stack of the shunting always holds just these. Counting brackets then tells what the pass finds: it
meets a closing bracket with none open where closing brackets first outnumber opening ones, and the
innermost of the brackets that stay open is the last one after which they never do.

What comes out keeps all lexemes but brackets, separators and the markers after functions, and the
order of those that are no operators or functions.
-/

namespace SymbolicAlgebra

open Outcome

namespace Lexeme

def isClosing : Lexeme → Bool
  | closing _ => true
  | _ => false

/-- A lexeme that goes straight to the output. -/
def isPlain : Lexeme → Bool
  | operand _ _ | unknown _ => true
  | _ => false

/-- Somewhere more brackets have been closed than opened. -/
def Exceeds (ls : List Lexeme) : Prop :=
  ∃ pre, pre <+: ls ∧ pre.countP isOpening < pre.countP isClosing

/-- The first closing bracket that outnumbers the opening ones. -/
def IsFirstExcess (text : String) (ls : List Lexeme) : Prop :=
  ∃ pre post, ls = pre ++ closing text :: post ∧ ¬ Exceeds pre ∧ Exceeds (pre ++ [closing text])

/-- The last opening bracket that stays open. One stays open if the lexemes after it nowhere close
more brackets than they open. -/
def IsLastUnmatched (text : String) (ls : List Lexeme) : Prop :=
  ∃ pre post, ls = pre ++ opening text :: post ∧ ¬ Exceeds post ∧
    ∀ pre' text' post', post = pre' ++ opening text' :: post' → Exceeds post'

/-- Every function stands before the marker of a product. -/
def MarksCalls (ls : List Lexeme) : Prop :=
  ∀ pre f post, ls = pre ++ function f :: post → ∃ rest, post = operator .juxtapose :: rest

theorem MarksCalls.tail {l : Lexeme} {ls : List Lexeme} (h : MarksCalls (l :: ls)) :
    MarksCalls ls := by
  intro pre f post hls
  apply h (l :: pre) f post
  rw [hls, List.cons_append]

/-- What a unit can be, whatever the brackets are. -/
theorem ofUnit_cases (b : Brackets) (unit : String) (following : List String) :
    (∃ o : Operator, ofUnit b unit following = operator o ∧ unit = o.symbol) ∨
      ofUnit b unit following = separator ∧ unit = "," ∨
      ofUnit b unit following = opening unit ∧ b.opens unit.toList = true ∨
      ofUnit b unit following = closing unit ∧ b.closes unit.toList = true ∨
      (∃ value, ofUnit b unit following = operand unit value) ∨
      (∃ f, ofUnit b unit following = function f ∧
        ofUnit.calledFunction? b unit following = some f) ∨
      ofUnit b unit following = unknown unit := by
  unfold ofUnit
  split
  · next o ho =>
    have hfound := List.find?_some ho
    exact .inl ⟨o, rfl, (of_decide_eq_true hfound).symm⟩
  apply Or.inr
  split
  · next h => exact .inl ⟨rfl, h⟩
  apply Or.inr
  split
  · next h => exact .inl ⟨rfl, h⟩
  apply Or.inr
  split
  · next h => exact .inl ⟨rfl, h⟩
  apply Or.inr
  split
  · exact .inl ⟨_, rfl⟩
  split
  · next f h => exact .inr (.inl ⟨f, rfl, h⟩)
  split
  · exact .inl ⟨_, rfl⟩
  split
  · exact .inl ⟨_, rfl⟩
  · exact .inr (.inr rfl)

theorem marksCalls_ofUnits (b : Brackets) (units : List String) : MarksCalls (ofUnits b units) := by
  induction units with
  | nil =>
    intro pre f post h
    simp [ofUnits] at h
  | cons unit rest ih =>
    intro pre f post h
    rw [ofUnits] at h
    cases pre with
    | cons l pre => exact ih pre f post (List.cons.inj h).2
    | nil =>
      obtain ⟨hunit, rfl⟩ := List.cons.inj h
      have hcalled : ofUnit.calledFunction? b unit rest = some f := by
        rcases ofUnit_cases b unit rest with ⟨o, h, -⟩ | ⟨h, -⟩ | ⟨h, -⟩ | ⟨h, -⟩ | ⟨value, h⟩ |
          ⟨g, h, hcalled⟩ | h
        case inr.inr.inr.inr.inr.inl =>
          obtain rfl := function.inj (h.symm.trans hunit)
          exact hcalled
        all_goals cases h.symm.trans hunit
      obtain ⟨-, bracket, following, rfl, -⟩ := calledFunction?_eq_some hcalled
      refine ⟨ofUnits b (bracket :: following), ?_⟩
      rw [ofUnits]
      rfl

/-- The brackets that are open after some lexemes, the innermost first, or the closing bracket that
is met when none is open. -/
def openAfter : List Lexeme → List String → Except String (List String)
  | [], opened => .ok opened
  | opening text :: rest, opened => openAfter rest (text :: opened)
  | closing text :: _, [] => .error text
  | closing _ :: rest, _ :: opened => openAfter rest opened
  | _ :: rest, opened => openAfter rest opened

def openTexts (stack : List Lexeme) : List String := (stack.filter isOpening).map text

/-- How shunting ends, given what is open at the end. -/
def EndsAs (r : Except Fault (List Lexeme)) : Except String (List String) → Prop
  | .error text => r = .error (.misread (.missingOpening text))
  | .ok (text :: _) => r = .error (.misread (.missingClosing text))
  | .ok [] => ∃ p, r = .ok p

theorem openTexts_dropWhile {q : Lexeme → Bool} (hq : ∀ l, q l = true → l.isOpening = false)
    (stack : List Lexeme) : openTexts (stack.dropWhile q) = openTexts stack := by
  have htake : (stack.takeWhile q).filter isOpening = [] := by
    apply List.filter_eq_nil_iff.mpr
    intro l hl
    simp [hq l (List.mem_takeWhile_imp hl)]
  conv_rhs => rw [← List.takeWhile_append_dropWhile (p := q) (l := stack)]
  rw [openTexts, openTexts, List.filter_append, htake, List.nil_append]

theorem unload_endsAs (stack output : List Lexeme) :
    EndsAs (unload stack output) (.ok (openTexts stack)) := by
  have hhead := List.head?_filter (p := isOpening) (l := stack)
  unfold unload
  cases hfilter : stack.filter isOpening with
  | nil =>
    rw [hfilter] at hhead
    rw [← hhead, openTexts, hfilter]
    exact ⟨_, rfl⟩
  | cons l rest =>
    rw [hfilter] at hhead
    rw [← hhead, openTexts, hfilter]
    rfl

theorem close_openTexts (text : String) (stack output : List Lexeme) :
    openTexts stack = [] ∧ close text stack output = .error (.misread (.missingOpening text)) ∨
      ∃ o stack' output', close text stack output = .ok (stack', output') ∧
        openTexts stack = o :: openTexts stack' := by
  have hdrop := openTexts_dropWhile (q := (!·.isOpening)) (by simp) stack
  unfold close
  cases hcases : stack.dropWhile (!·.isOpening) with
  | nil =>
    rw [hcases] at hdrop
    exact .inl ⟨hdrop.symm, rfl⟩
  | cons bracket below =>
    have hbracket := List.head_dropWhile_not (fun l : Lexeme => !l.isOpening) (l := stack)
      (by simp [hcases])
    simp only [hcases, List.head_cons, Bool.not_eq_false'] at hbracket
    rw [hcases, openTexts, List.filter_cons_of_pos hbracket, List.map_cons] at hdrop
    cases below with
    | nil => exact .inr ⟨bracket.text, [], _, rfl, hdrop.symm⟩
    | cons l below =>
      cases l with
      | function f => exact .inr ⟨bracket.text, below, _, rfl, hdrop.symm⟩
      | _ => exact .inr ⟨bracket.text, _, _, rfl, hdrop.symm⟩

/-- Shunting ends as the pass over the brackets does. -/
theorem shunt_endsAs {ls : List Lexeme} (hmarks : MarksCalls ls) (stack output : List Lexeme) :
    EndsAs (shunt ls stack output) (openAfter ls (openTexts stack)) := by
  fun_induction shunt ls stack output with
  | case1 stack output => exact unload_endsAs stack output
  | case2 _ _ _ _ _ ih | case3 _ _ _ _ ih | case8 _ _ _ _ ih => exact ih hmarks.tail
  | case4 f marker rest stack output ih =>
    obtain ⟨rest', hrest⟩ := hmarks [] f (marker :: rest) rfl
    obtain ⟨rfl, rfl⟩ := List.cons.inj hrest
    exact ih hmarks.tail.tail
  | case5 f stack output =>
    obtain ⟨rest', hrest⟩ := hmarks [] f [] rfl
    cases hrest
  | case6 o rest stack output ih =>
    have hdrop := openTexts_dropWhile (fun _ => isOpening_of_yields (o := o)) stack
    have hrest := ih hmarks.tail
    rwa [show openTexts (operator o :: stack.dropWhile (yields o)) = openTexts stack from hdrop]
      at hrest
  | case7 rest stack output ih =>
    have hrest := ih hmarks.tail
    rwa [openTexts_dropWhile fun _ => isOpening_of_isOperator] at hrest
  | case9 text rest stack output ih =>
    rcases close_openTexts text stack output with
      ⟨hnil, hclose⟩ | ⟨o, stack', output', hclose, hopen⟩
    · rw [hnil, hclose]
      rfl
    · rw [hopen, hclose, ok_bind]
      exact ih stack' output' hmarks.tail

variable {ls : List Lexeme} {opened opened' : List String} {text : String}

/-- Nowhere are more brackets closed than are opened and were open before. -/
def StaysWithin (depth : Nat) (ls : List Lexeme) : Prop :=
  ∀ pre, pre <+: ls → pre.countP isClosing ≤ depth + pre.countP isOpening

theorem exceeds_iff : Exceeds ls ↔ ¬ StaysWithin 0 ls := by
  simp only [Exceeds, StaysWithin, not_forall, not_le, Nat.zero_add, exists_prop]

theorem StaysWithin.cons {depth depth' : Nat} {l : Lexeme} (h : StaysWithin depth' ls)
    (hl : depth' + [l].countP isClosing ≤ depth + [l].countP isOpening) :
    StaysWithin depth (l :: ls) := by
  intro pre hpre
  rcases List.prefix_cons_iff.mp hpre with rfl | ⟨rest, rfl, hrest⟩
  · simp
  · have hcount := h rest hrest
    rw [← List.singleton_append, List.countP_append, List.countP_append]
    omega

/-- Where the pass ends, no bracket was closed in excess, and it kept the difference of the
numbers. -/
theorem openAfter_eq_ok (h : openAfter ls opened = .ok opened') :
    StaysWithin opened.length ls ∧
      opened'.length + ls.countP isClosing = opened.length + ls.countP isOpening := by
  induction ls generalizing opened with
  | nil =>
    obtain rfl := Except.ok.inj h
    refine ⟨fun pre hpre => ?_, rfl⟩
    rw [List.prefix_nil.mp hpre]
    simp
  | cons l ls ih =>
    rw [← List.singleton_append, List.countP_append, List.countP_append]
    cases l with
    | opening text =>
      obtain ⟨hwithin, hcount⟩ := @ih (text :: opened) h
      refine ⟨hwithin.cons (by simp [isOpening, isClosing]), ?_⟩
      simp only [List.length_cons] at hcount
      simp [isOpening, isClosing]
      omega
    | closing text =>
      cases opened with
      | nil => cases h
      | cons o opened =>
        obtain ⟨hwithin, hcount⟩ := @ih opened h
        refine ⟨hwithin.cons (by simp [isOpening, isClosing]), ?_⟩
        simp [isOpening, isClosing]
        omega
    | _ =>
      obtain ⟨hwithin, hcount⟩ := @ih opened h
      refine ⟨hwithin.cons (by simp [isOpening, isClosing]), ?_⟩
      simpa [isOpening, isClosing] using hcount

theorem openAfter_eq_error (h : openAfter ls opened = .error text) :
    ∃ pre post, ls = pre ++ closing text :: post ∧ openAfter pre opened = .ok [] := by
  induction ls generalizing opened with
  | nil => cases h
  | cons l ls ih =>
    have hlater : ∀ opened', openAfter (l :: ls) opened = openAfter ls opened' →
        (∀ pre, openAfter (l :: pre) opened = openAfter pre opened') →
        ∃ pre post, l :: ls = pre ++ closing text :: post ∧ openAfter pre opened = .ok [] := by
      intro opened' hls hpre
      obtain ⟨pre, post, rfl, hok⟩ := @ih opened' (hls ▸ h)
      exact ⟨l :: pre, post, rfl, (hpre pre).trans hok⟩
    cases l with
    | opening o => exact hlater (o :: opened) rfl fun _ => rfl
    | closing c =>
      cases opened with
      | nil =>
        obtain rfl := Except.error.inj h
        exact ⟨[], ls, rfl, rfl⟩
      | cons o opened => exact hlater opened rfl fun _ => rfl
    | _ => exact hlater opened rfl fun _ => rfl

/-- A bracket that is open at the end was open before, or stands among the lexemes; what follows it
closes what it opens, or all that was opened before. -/
theorem openAfter_eq_cons (h : openAfter ls opened = .ok (text :: opened')) :
    (∃ closed, opened = closed ++ text :: opened' ∧ openAfter ls closed = .ok []) ∨
      ∃ pre post, ls = pre ++ opening text :: post ∧ openAfter post [] = .ok [] := by
  induction ls generalizing opened with
  | nil => exact .inl ⟨[], Except.ok.inj h, rfl⟩
  | cons l ls ih =>
    cases l with
    | opening o =>
      rcases @ih (o :: opened) h with ⟨closed, hclosed, hok⟩ | ⟨pre, post, rfl, hok⟩
      · cases closed with
        | nil =>
          obtain ⟨rfl, -⟩ := List.cons.inj hclosed
          exact .inr ⟨[], ls, rfl, hok⟩
        | cons c closed =>
          obtain ⟨rfl, hopened⟩ := List.cons.inj hclosed
          exact .inl ⟨closed, hopened, hok⟩
      · exact .inr ⟨opening o :: pre, post, rfl, hok⟩
    | closing c =>
      cases opened with
      | nil => cases h
      | cons o opened =>
        rcases @ih opened h with ⟨closed, rfl, hok⟩ | ⟨pre, post, rfl, hok⟩
        · exact .inl ⟨o :: closed, rfl, hok⟩
        · exact .inr ⟨closing c :: pre, post, rfl, hok⟩
    | _ =>
      rcases @ih opened h with ⟨closed, hclosed, hok⟩ | ⟨pre, post, rfl, hok⟩
      · exact .inl ⟨closed, hclosed, hok⟩
      · exact .inr ⟨_ :: pre, post, rfl, hok⟩

theorem isFirstExcess_of_openAfter (h : openAfter ls [] = .error text) : IsFirstExcess text ls := by
  obtain ⟨pre, post, rfl, hok⟩ := openAfter_eq_error h
  obtain ⟨hwithin, hcount⟩ := openAfter_eq_ok hok
  refine ⟨pre, post, rfl, fun hexceeds => exceeds_iff.mp hexceeds hwithin, ?_⟩
  refine ⟨pre ++ [closing text], List.prefix_rfl, ?_⟩
  simp only [List.length_nil, Nat.zero_add] at hcount
  simp [isOpening, isClosing, hcount]

theorem isLastUnmatched_of_openAfter (h : openAfter ls [] = .ok (text :: opened)) :
    IsLastUnmatched text ls := by
  obtain ⟨closed, hclosed, -⟩ | ⟨pre, post, rfl, hok⟩ := openAfter_eq_cons h
  · simp at hclosed
  obtain ⟨hwithin, hcount⟩ := openAfter_eq_ok hok
  refine ⟨pre, post, rfl, fun hexceeds => exceeds_iff.mp hexceeds hwithin, ?_⟩
  rintro pre' text' post' rfl
  have hpre := hwithin pre' (List.prefix_append _ _)
  refine ⟨post', List.prefix_rfl, ?_⟩
  simp [List.countP_cons, isOpening, isClosing] at hpre hcount
  omega

theorem filter_isPlain_takeWhile {stack : List Lexeme} (q : Lexeme → Bool)
    (h : stack.filter isPlain = []) : (stack.takeWhile q).filter isPlain = [] := by
  apply List.filter_eq_nil_iff.mpr
  intro l hl
  exact List.filter_eq_nil_iff.mp h l ((List.takeWhile_prefix q).subset hl)

theorem filter_isPlain_dropWhile {stack : List Lexeme} (q : Lexeme → Bool)
    (h : stack.filter isPlain = []) : (stack.dropWhile q).filter isPlain = [] := by
  apply List.filter_eq_nil_iff.mpr
  intro l hl
  exact List.filter_eq_nil_iff.mp h l ((List.dropWhile_suffix q).subset hl)

theorem filter_isPlain_of_shunt {stack output p : List Lexeme} (hmarks : MarksCalls ls)
    (hstack : stack.filter isPlain = []) (h : shunt ls stack output = .ok p) :
    p.filter isPlain = output.reverse.filter isPlain ++ ls.filter isPlain := by
  fun_induction shunt ls stack output with
  | case1 stack output =>
    obtain ⟨-, rfl⟩ := unload_eq_ok h
    rw [List.filter_append, hstack]
    rfl
  | case2 text value rest stack output ih =>
    rw [ih hmarks.tail hstack h]
    simp [List.filter_cons, isPlain]
  | case3 text rest stack output ih =>
    rw [ih hmarks.tail hstack h]
    simp [List.filter_cons, isPlain]
  | case4 f marker rest stack output ih =>
    obtain ⟨rest', hrest⟩ := hmarks [] f (marker :: rest) rfl
    obtain ⟨rfl, rfl⟩ := List.cons.inj hrest
    rw [ih hmarks.tail.tail (by simpa [isPlain] using hstack) h]
    simp [isPlain]
  | case5 f stack output =>
    obtain ⟨rest', hrest⟩ := hmarks [] f [] rfl
    cases hrest
  | case6 o rest stack output ih =>
    have htake := filter_isPlain_takeWhile (yields o) hstack
    have hdrop := filter_isPlain_dropWhile (yields o) hstack
    rw [ih hmarks.tail (by simpa [isPlain] using hdrop) h]
    simp [htake, isPlain]
  | case7 rest stack output ih =>
    have htake := filter_isPlain_takeWhile isOperator hstack
    rw [ih hmarks.tail (filter_isPlain_dropWhile isOperator hstack) h]
    simp [htake, isPlain]
  | case8 text rest stack output ih =>
    rw [ih hmarks.tail (by simpa [isPlain] using hstack) h]
    simp [isPlain]
  | case9 text rest stack output ih =>
    obtain ⟨⟨stack', output'⟩, hclose, h⟩ := bind_eq_ok.mp h
    obtain ⟨above, o, below, rfl, -, hcases⟩ := close_eq_ok hclose
    obtain ⟨habove, hbelow⟩ : above.filter isPlain = [] ∧ below.filter isPlain = [] := by
      simpa [isPlain] using hstack
    rcases hcases with ⟨f, rfl, rfl⟩ | ⟨-, rfl, rfl⟩
    · rw [ih _ _ hmarks.tail (by simpa [isPlain] using hbelow) h]
      simp [isPlain, habove]
    · rw [ih _ _ hmarks.tail hbelow h]
      simp [isPlain, habove]

theorem filter_isPlain_of_toPostfix {p : List Lexeme} (hmarks : MarksCalls ls)
    (h : toPostfix ls = .ok p) : p.filter isPlain = ls.filter isPlain :=
  filter_isPlain_of_shunt hmarks rfl h

theorem Exceeds.of_prefix {pre : List Lexeme} (h : Exceeds pre) (hpre : pre <+: ls) :
    Exceeds ls := by
  obtain ⟨start, hstart, hcount⟩ := h
  exact ⟨start, hstart.trans hpre, hcount⟩

/-- What becomes of lexemes by the numbers of their brackets. -/
theorem toPostfix_cases (hmarks : MarksCalls ls) :
    (∃ text, toPostfix ls = .error (.misread (.missingOpening text)) ∧ Exceeds ls ∧
      IsFirstExcess text ls) ∨
    (∃ text, toPostfix ls = .error (.misread (.missingClosing text)) ∧ ¬ Exceeds ls ∧
      ls.countP isClosing < ls.countP isOpening ∧ IsLastUnmatched text ls) ∨
    ∃ p, toPostfix ls = .ok p ∧ ¬ Exceeds ls ∧ ls.countP isClosing = ls.countP isOpening := by
  have hends : EndsAs (toPostfix ls) (openAfter ls []) := shunt_endsAs hmarks [] []
  cases hopen : openAfter ls [] with
  | error text =>
    rw [hopen] at hends
    have hfirst := isFirstExcess_of_openAfter hopen
    obtain ⟨pre, post, hls, -, hexceeds⟩ := id hfirst
    refine .inl ⟨text, hends, hexceeds.of_prefix ⟨post, ?_⟩, hfirst⟩
    rw [hls, List.append_assoc, List.singleton_append]
  | ok opened =>
    obtain ⟨hwithin, hcount⟩ := openAfter_eq_ok hopen
    have hexceeds : ¬ Exceeds ls := fun h => exceeds_iff.mp h hwithin
    rw [hopen] at hends
    apply Or.inr
    cases opened with
    | nil =>
      obtain ⟨p, hp⟩ := hends
      exact .inr ⟨p, hp, hexceeds, by simpa using hcount⟩
    | cons text opened =>
      simp only [List.length_cons, List.length_nil] at hcount
      exact .inl ⟨text, hends, hexceeds, by omega, isLastUnmatched_of_openAfter hopen⟩

/-- A misreading with a summary, blamed on a unit. -/
def Reports (r : Except Fault (List Lexeme)) (summary unit : String) : Prop :=
  ∃ cause : Misreading, r = .error (.misread cause) ∧ cause.summary = summary ∧
    cause.unit? = some unit

theorem reports_error {cause : Misreading} {summary unit : String} :
    Reports (.error (.misread cause)) summary unit ↔
      cause.summary = summary ∧ cause.unit? = some unit := by
  constructor
  · rintro ⟨cause', hcause, h⟩
    obtain rfl := Fault.misread.inj (Except.error.inj hcause)
    exact h
  · intro h
    exact ⟨cause, rfl, h⟩

theorem not_reports_ok {p : List Lexeme} {summary unit : String} :
    ¬ Reports (.ok p) summary unit := by
  rintro ⟨cause, hcause, -⟩
  cases hcause

theorem isFirstExcess_of_reports (hmarks : MarksCalls ls)
    (h : Reports (toPostfix ls) "Missing opening parenthesis." text) :
    Exceeds ls ∧ IsFirstExcess text ls := by
  rcases toPostfix_cases hmarks with
    ⟨unit, hresult, hexceeds, hfirst⟩ | ⟨unit, hresult, -⟩ | ⟨p, hresult, -⟩
  · rw [hresult, reports_error] at h
    obtain rfl := Option.some.inj h.2
    exact ⟨hexceeds, hfirst⟩
  · rw [hresult, reports_error] at h
    have hdistinct : "Missing closing parenthesis." ≠ "Missing opening parenthesis." := by decide
    exact absurd h.1 hdistinct
  · rw [hresult] at h
    exact absurd h not_reports_ok

theorem reports_of_exceeds (hmarks : MarksCalls ls) (h : Exceeds ls) :
    ∃ text, Reports (toPostfix ls) "Missing opening parenthesis." text := by
  rcases toPostfix_cases hmarks with
    ⟨unit, hresult, -⟩ | ⟨unit, -, hexceeds, -⟩ | ⟨p, -, hexceeds, -⟩
  · exact ⟨unit, _, hresult, rfl, rfl⟩
  · exact absurd h hexceeds
  · exact absurd h hexceeds

theorem isLastUnmatched_of_reports (hmarks : MarksCalls ls)
    (h : Reports (toPostfix ls) "Missing closing parenthesis." text) :
    ls.countP isClosing < ls.countP isOpening ∧ IsLastUnmatched text ls := by
  rcases toPostfix_cases hmarks with
    ⟨unit, hresult, -⟩ | ⟨unit, hresult, -, hcount, hlast⟩ | ⟨p, hresult, -⟩
  · rw [hresult, reports_error] at h
    have hdistinct : "Missing opening parenthesis." ≠ "Missing closing parenthesis." := by decide
    exact absurd h.1 hdistinct
  · rw [hresult, reports_error] at h
    obtain rfl := Option.some.inj h.2
    exact ⟨hcount, hlast⟩
  · rw [hresult] at h
    exact absurd h not_reports_ok

theorem reports_of_countP_lt (hmarks : MarksCalls ls) (hexceeds : ¬ Exceeds ls)
    (h : ls.countP isClosing < ls.countP isOpening) :
    ∃ text, Reports (toPostfix ls) "Missing closing parenthesis." text := by
  rcases toPostfix_cases hmarks with ⟨unit, -, h, -⟩ | ⟨unit, hresult, -⟩ | ⟨p, -, -, hcount⟩
  · exact absurd h hexceeds
  · exact ⟨unit, _, hresult, rfl, rfl⟩
  · omega

theorem toPostfix_ok (hmarks : MarksCalls ls) (hexceeds : ¬ Exceeds ls)
    (h : ¬ ls.countP isClosing < ls.countP isOpening) : ∃ p, toPostfix ls = .ok p := by
  rcases toPostfix_cases hmarks with ⟨unit, -, h, -⟩ | ⟨unit, -, -, hcount, -⟩ | ⟨p, hresult, -⟩
  · exact absurd h hexceeds
  · exact absurd hcount h
  · exact ⟨p, hresult⟩

/-- The lexemes of a text come into postfix order, all of them but brackets, separators and the
markers after functions, unless a bracket is not matched; then the first closing bracket in excess,
or else the last opening one that stays open, is reported. -/
theorem toPostfix_outcome (b : Brackets) (formula : String) :
    let ls := ofUnits b (Formula.units b formula)
    let excess := "Missing opening parenthesis."
    let unmatched := "Missing closing parenthesis."
    ((∃ unit, Reports (toPostfix ls) excess unit) ↔ Exceeds ls) ∧
      (∀ unit, Reports (toPostfix ls) excess unit → IsFirstExcess unit ls) ∧
      (¬ Exceeds ls → ((∃ unit, Reports (toPostfix ls) unmatched unit) ↔
        ls.countP isClosing < ls.countP isOpening)) ∧
      (∀ unit, Reports (toPostfix ls) unmatched unit → IsLastUnmatched unit ls) ∧
      (¬ Exceeds ls → ¬ ls.countP isClosing < ls.countP isOpening →
        ∃ p, toPostfix ls = .ok p ∧ p.Perm (payload ls) ∧ p.filter isPlain = ls.filter isPlain) ∧
      MarksCalls ls := by
  intro ls excess unmatched
  have hmarks : MarksCalls ls := marksCalls_ofUnits b _
  refine ⟨⟨?_, reports_of_exceeds hmarks⟩, ?_,
    fun hexceeds => ⟨?_, reports_of_countP_lt hmarks hexceeds⟩, ?_, fun hexceeds hcount => ?_,
    hmarks⟩
  · rintro ⟨unit, h⟩
    exact (isFirstExcess_of_reports hmarks h).1
  · intro unit h
    exact (isFirstExcess_of_reports hmarks h).2
  · rintro ⟨unit, h⟩
    exact (isLastUnmatched_of_reports hmarks h).1
  · intro unit h
    exact (isLastUnmatched_of_reports hmarks h).2
  · obtain ⟨p, hp⟩ := toPostfix_ok hmarks hexceeds hcount
    exact ⟨p, hp, perm_of_toPostfix hp, filter_isPlain_of_toPostfix hmarks hp⟩

end Lexeme

end SymbolicAlgebra
