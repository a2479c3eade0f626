import Mathlib.Data.List.TakeWhile
import SymbolicAlgebra.Proofs.WellFormed

/-!
# Postfix order keeps every lexeme

Shunting rearranges the operands, operators and functions of a formula and drops nothing but
brackets, separators and the markers after functions. It goes through only where brackets match.
Building takes as many operands from the stack as the operators and functions have between them, so
the numbers of operands that lexemes add and take make up for each other.
-/

namespace SymbolicAlgebra

open Outcome

namespace Lexeme

/-- The lexemes that come out in postfix order: all but brackets, separators and what follows a
function. -/
def payload : List Lexeme → List Lexeme
  | [] => []
  | function f :: _ :: rest => function f :: payload rest
  | opening _ :: rest | closing _ :: rest | separator :: rest => payload rest
  | l :: rest => l :: payload rest

theorem unload_eq_ok {stack output p : List Lexeme} (h : unload stack output = .ok p) :
    (∀ l ∈ stack, l.isOpening = false) ∧ p = output.reverse ++ stack := by
  unfold unload at h
  split at h
  · cases h
  · next hnone =>
    refine ⟨fun l hl => ?_, (Except.ok.inj h).symm⟩
    simpa using List.find?_eq_none.mp hnone l hl

/-- Closing a bracket finds an opening one, and above it only lexemes that move to the output. -/
theorem close_eq_ok {text : String} {stack output stack' output' : List Lexeme}
    (h : close text stack output = .ok (stack', output')) :
    ∃ (above : List Lexeme) (o : String) (below : List Lexeme),
      stack = above ++ opening o :: below ∧ (∀ l ∈ above, l.isOpening = false) ∧
        ((∃ f, below = function f :: stack' ∧ output' = function f :: (above.reverse ++ output)) ∨
          (∀ f rest, below ≠ function f :: rest) ∧ stack' = below ∧
            output' = above.reverse ++ output) := by
  have habove : ∀ l ∈ stack.takeWhile (!·.isOpening), l.isOpening = false := by
    intro l hl
    simpa using List.mem_takeWhile_imp hl
  have hsplit := List.takeWhile_append_dropWhile (p := (!·.isOpening)) (l := stack)
  have hopening : ∀ {bracket below}, stack.dropWhile (!·.isOpening) = bracket :: below →
      ∃ o, bracket = opening o := by
    intro bracket below hdrop
    have hbracket := List.head_dropWhile_not (fun l : Lexeme => !l.isOpening) (l := stack)
      (by simp [hdrop])
    simp only [hdrop, List.head_cons] at hbracket
    cases bracket <;> simp_all [isOpening]
  unfold close at h
  split at h
  · cases h
  · next bracket f below hdrop =>
    obtain ⟨rfl, rfl⟩ := Prod.mk.inj (Except.ok.inj h)
    obtain ⟨o, rfl⟩ := hopening hdrop
    exact ⟨_, o, _, by rw [← hdrop, hsplit], habove, .inl ⟨f, rfl, rfl⟩⟩
  · next bracket below hnot hdrop =>
    obtain ⟨rfl, rfl⟩ := Prod.mk.inj (Except.ok.inj h)
    obtain ⟨o, rfl⟩ := hopening hdrop
    refine ⟨_, o, _, by rw [← hdrop, hsplit], habove, .inr ⟨?_, rfl, rfl⟩⟩
    rintro f rest rfl
    exact hnot f rest rfl

theorem isOpening_of_yields {o : Operator} {l : Lexeme} (h : yields o l = true) :
    l.isOpening = false := by
  cases l with
  | operator _ => rfl
  | _ => simp [yields] at h

theorem isOpening_of_isOperator {l : Lexeme} (h : l.isOperator = true) : l.isOpening = false := by
  cases l with
  | operator _ => rfl
  | _ => simp [isOperator] at h

/-- The lexemes on the stack but for the opening brackets. -/
def waiting (stack : List Lexeme) : List Lexeme := stack.filter (!·.isOpening)

theorem waiting_append (s t : List Lexeme) : waiting (s ++ t) = waiting s ++ waiting t :=
  List.filter_append s t

theorem waiting_of_not_isOpening {stack : List Lexeme} (h : ∀ l ∈ stack, l.isOpening = false) :
    waiting stack = stack := by
  rw [waiting, List.filter_eq_self]
  simpa using h

/-- What an operator or a separator moves from the stack to the output holds no bracket. -/
theorem perm_unload {q : Lexeme → Bool} (hq : ∀ l, q l = true → l.isOpening = false)
    (stack output : List Lexeme) :
    (waiting (stack.dropWhile q) ++ ((stack.takeWhile q).reverse ++ output)).Perm
      (waiting stack ++ output) := by
  have htake : waiting (stack.takeWhile q) = stack.takeWhile q :=
    waiting_of_not_isOpening fun l hl => hq l (List.mem_takeWhile_imp hl)
  have hstack : waiting stack = stack.takeWhile q ++ waiting (stack.dropWhile q) := by
    conv_lhs => rw [← List.takeWhile_append_dropWhile (p := q) (l := stack), waiting_append, htake]
  rw [hstack, ← List.append_assoc]
  refine List.Perm.append_right output ?_
  exact List.perm_append_comm.trans ((List.reverse_perm _).append_right _)

theorem perm_close {text : String} {stack output stack' output' : List Lexeme}
    (h : close text stack output = .ok (stack', output')) :
    (waiting stack' ++ output').Perm (waiting stack ++ output) := by
  obtain ⟨above, o, below, rfl, habove, hcases⟩ := close_eq_ok h
  have hwaiting : waiting (above ++ opening o :: below) = above ++ waiting below := by
    rw [waiting_append, waiting_of_not_isOpening habove]
    rfl
  have hmove : (waiting below ++ (above.reverse ++ output)).Perm
      (above ++ waiting below ++ output) := by
    rw [← List.append_assoc]
    refine List.Perm.append_right output ?_
    exact List.perm_append_comm.trans ((List.reverse_perm _).append_right _)
  rw [hwaiting]
  rcases hcases with ⟨f, rfl, rfl⟩ | ⟨-, rfl, rfl⟩
  · exact List.perm_middle.trans hmove
  · exact hmove

theorem perm_output (a b c : List Lexeme) (l : Lexeme) :
    (a ++ (b ++ l :: c)).Perm (l :: a ++ (b ++ c)) := by
  rw [← List.append_assoc, List.cons_append, ← List.append_assoc]
  exact List.perm_middle

/-- Postfix order is an order of the payload. -/
theorem perm_of_shunt {ls stack output p : List Lexeme} (h : shunt ls stack output = .ok p) :
    p.Perm (payload ls ++ (waiting stack ++ output)) := by
  have hunload : ∀ {stack output : List Lexeme}, unload stack output = .ok p →
      p.Perm (waiting stack ++ output) := by
    intro stack output h
    obtain ⟨hstack, rfl⟩ := unload_eq_ok h
    rw [waiting_of_not_isOpening hstack]
    exact List.perm_append_comm.trans ((List.reverse_perm output).append_left stack)
  fun_induction shunt ls stack output with
  | case1 stack output => exact hunload h
  | case2 text value rest stack output ih => exact (ih h).trans (perm_output _ _ _ _)
  | case3 text rest stack output ih => exact (ih h).trans (perm_output _ _ _ _)
  | case4 f marker rest stack output ih => exact (ih h).trans List.perm_middle
  | case5 f stack output => cases h
  | case6 o rest stack output ih =>
    have hmove := perm_unload (fun _ => isOpening_of_yields (o := o)) stack output
    exact (ih h).trans (List.perm_middle.trans ((hmove.append_left (payload rest)).cons _))
  | case7 rest stack output ih =>
    exact (ih h).trans
      (List.Perm.append_left _ (perm_unload (fun _ => isOpening_of_isOperator) stack output))
  | case8 text rest stack output ih => exact ih h
  | case9 text rest stack output ih =>
    obtain ⟨⟨stack', output'⟩, hclose, h⟩ := bind_eq_ok.mp h
    exact (ih _ _ h).trans (List.Perm.append_left _ (perm_close hclose))

theorem perm_of_toPostfix {ls p : List Lexeme} (h : toPostfix ls = .ok p) :
    p.Perm (payload ls) := by
  simpa [waiting] using perm_of_shunt h

/-- Every closing bracket has an opening one before it, and every opening one has a closing one
after it, where so many are open already. -/
def IsBalanced : List Lexeme → Nat → Prop
  | [], depth => depth = 0
  | function _ :: _ :: rest, depth => IsBalanced rest depth
  | opening _ :: rest, depth => IsBalanced rest (depth + 1)
  | closing _ :: _, 0 => False
  | closing _ :: rest, depth + 1 => IsBalanced rest depth
  | _ :: rest, depth => IsBalanced rest depth

theorem countP_isOpening_dropWhile {q : Lexeme → Bool} (hq : ∀ l, q l = true → l.isOpening = false)
    (stack : List Lexeme) : (stack.dropWhile q).countP isOpening = stack.countP isOpening := by
  have htake : (stack.takeWhile q).countP isOpening = 0 := by
    rw [List.countP_eq_zero]
    intro l hl
    simp [hq l (List.mem_takeWhile_imp hl)]
  conv_rhs => rw [← List.takeWhile_append_dropWhile (p := q) (l := stack), List.countP_append, htake,
    Nat.zero_add]

theorem countP_isOpening_close {text : String} {stack output stack' output' : List Lexeme}
    (h : close text stack output = .ok (stack', output')) :
    stack.countP isOpening = stack'.countP isOpening + 1 := by
  obtain ⟨above, o, below, rfl, habove, hcases⟩ := close_eq_ok h
  have hnone : above.countP isOpening = 0 := by
    rw [List.countP_eq_zero]
    intro l hl
    simp [habove l hl]
  have hbelow : below.countP isOpening = stack'.countP isOpening := by
    rcases hcases with ⟨f, rfl, -⟩ | ⟨-, rfl, -⟩
    · simp [isOpening]
    · rfl
  rw [List.countP_append, hnone, List.countP_cons, hbelow]
  simp [isOpening]

theorem isBalanced_of_shunt {ls stack output p : List Lexeme} (h : shunt ls stack output = .ok p) :
    IsBalanced ls (stack.countP isOpening) := by
  have hunload : ∀ {stack output : List Lexeme}, unload stack output = .ok p →
      stack.countP isOpening = 0 := by
    intro stack output h
    rw [List.countP_eq_zero]
    intro l hl
    simp [(unload_eq_ok h).1 l hl]
  fun_induction shunt ls stack output with
  | case1 stack output => exact hunload h
  | case2 text value rest stack output ih => exact ih h
  | case3 text rest stack output ih => exact ih h
  | case4 f marker rest stack output ih => simpa [IsBalanced, isOpening] using ih h
  | case5 f stack output => cases h
  | case6 o rest stack output ih =>
    have hdrop := countP_isOpening_dropWhile (fun _ => isOpening_of_yields (o := o)) stack
    simpa [IsBalanced, isOpening, hdrop] using ih h
  | case7 rest stack output ih =>
    have hdrop := countP_isOpening_dropWhile (fun _ => isOpening_of_isOperator) stack
    simpa [IsBalanced, hdrop] using ih h
  | case8 text rest stack output ih =>
    have hbalanced := ih h
    rwa [List.countP_cons_of_pos rfl] at hbalanced
  | case9 text rest stack output ih =>
    obtain ⟨⟨stack', output'⟩, hclose, h⟩ := bind_eq_ok.mp h
    rw [countP_isOpening_close hclose, IsBalanced]
    exact ih _ _ h

theorem isBalanced_of_toPostfix {ls p : List Lexeme} (h : toPostfix ls = .ok p) :
    IsBalanced ls 0 := isBalanced_of_shunt h

/-- How many operands a lexeme adds when a tree is built. -/
def gain : Lexeme → Int
  | operand _ _ => 1
  | operator o => 1 - o.arity
  | function f => 1 - f.arity
  | _ => 0

/-- Lexemes from which something can be built. -/
def IsBuilding : Lexeme → Prop
  | operand _ _ | operator _ | function _ => True
  | _ => False

theorem buildStep_eq_ok {operands operands' : List Tree} {l : Lexeme}
    (h : buildStep operands l = .ok operands') :
    l.IsBuilding ∧ operands' ≠ [] ∧ (operands'.length : Int) = operands.length + l.gain := by
  unfold buildStep at h
  split at h
  · obtain rfl := Except.ok.inj h
    exact ⟨trivial, by simp, by simp [gain]⟩
  · split at h
    · cases h
    · next o taken rest htaken =>
      obtain ⟨c, hc, h⟩ := bind_eq_ok.mp h
      obtain rfl := Except.ok.inj h
      obtain ⟨hlength, rfl⟩ := takeOperands?_eq_some htaken
      refine ⟨trivial, by simp, ?_⟩
      simp only [gain, List.length_cons, List.length_append, List.length_reverse, hlength]
      push_cast
      ring
  · split at h
    · cases h
    · next f taken rest htaken =>
      obtain rfl := Except.ok.inj h
      obtain ⟨hlength, rfl⟩ := takeOperands?_eq_some htaken
      refine ⟨trivial, by simp, ?_⟩
      simp only [gain, List.length_cons, List.length_append, List.length_reverse, hlength]
      push_cast
      ring
  · cases h

theorem foldlM_buildStep_eq_ok {p : List Lexeme} {operands operands' : List Tree}
    (h : p.foldlM buildStep operands = .ok operands') :
    (∀ l ∈ p, l.IsBuilding) ∧ (p ≠ [] → operands' ≠ []) ∧
      (operands'.length : Int) = operands.length + (p.map gain).sum := by
  induction p generalizing operands with
  | nil =>
    obtain rfl := Except.ok.inj h
    simp
  | cons l p ih =>
    rw [List.foldlM_cons] at h
    obtain ⟨next, hnext, h⟩ := bind_eq_ok.mp h
    obtain ⟨hl, hne, hlength⟩ := buildStep_eq_ok hnext
    obtain ⟨hp, hne', hlength'⟩ := ih h
    refine ⟨List.forall_mem_cons.mpr ⟨hl, hp⟩, fun _ => ?_, ?_⟩
    · cases p with
      | nil =>
        obtain rfl := Except.ok.inj h
        exact hne
      | cons l' p => exact hne' (by simp)
    · rw [hlength', hlength, List.map_cons, List.sum_cons]
      ring

/-- What a tree is built from adds up to one operand, unless it is nothing at all. -/
theorem gain_of_build {p : List Lexeme} {t : Tree} (h : build p = .ok t) :
    (∀ l ∈ p, l.IsBuilding) ∧ (p ≠ [] → (p.map gain).sum = 1) := by
  obtain ⟨operands, hoperands, h⟩ := bind_eq_ok.mp h
  obtain ⟨hp, hne, hlength⟩ := foldlM_buildStep_eq_ok hoperands
  refine ⟨hp, fun hnil => ?_⟩
  split at h
  · exact absurd rfl (hne hnil)
  · simpa using hlength.symm
  · cases h

end Lexeme

end SymbolicAlgebra
