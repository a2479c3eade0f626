import Mathlib
import SymbolicAlgebra.Proofs.Classification
import SymbolicAlgebra.Proofs.PostfixOrder
import SymbolicAlgebra.Proofs.Shunting

/-!
# Lexemes out of place

Shunting forgets where a lexeme stood, and building only counts operands. `slips` goes through the
lexemes in their order and notes where an operand begins that nothing takes and where one is missing.
Counted together, the operands come to one more than the operators and functions take, and to one more
again for each surplus, and to one less for each that is missing. Building ends with one operand, so in
a formula that is read the two kinds of slips balance. Lexemes without a slip are the sentences of the
grammar: the part before each place is the beginning of a sentence.
-/

namespace SymbolicAlgebra

open Outcome

/-- Where a lexeme stands: where an operand begins, after a sign, or after an operand. -/
inductive Position where
  | start
  | signed
  | done

/-- An operand that nothing takes, or one that is missing. -/
inductive Slip where
  | surplus
  | missing
  deriving DecidableEq

namespace Slip

/-- By how much the surplus exceeds what is missing. -/
def excess (found : List Slip) : Int := found.count .surplus - found.count .missing

theorem excess_append (found later : List Slip) :
    excess (found ++ later) = excess found + excess later := by
  simp only [excess, List.count_append]
  omega

theorem excess_cons_surplus (found : List Slip) : excess (.surplus :: found) = excess found + 1 := by
  simp only [excess, List.count_cons_self, List.count_cons_of_ne (by decide : surplus ≠ missing)]
  omega

theorem excess_replicate_missing (n : Nat) : excess (List.replicate n .missing) = -n := by
  have hnone : (List.replicate n missing).count .surplus = 0 :=
    List.count_eq_zero.mpr fun h => by cases List.eq_of_mem_replicate h
  rw [excess, hnone, List.count_replicate_self]
  omega

theorem eq_nil_of_excess {found : List Slip} (hexcess : excess found = 0)
    (hsurplus : .surplus ∉ found) : found = [] := by
  have hmissing : .missing ∉ found := by
    rw [← List.count_eq_zero] at hsurplus ⊢
    simp only [excess] at hexcess
    omega
  refine List.eq_nil_iff_forall_not_mem.mpr fun slip hslip => ?_
  cases slip with
  | surplus => exact hsurplus hslip
  | missing => exact hmissing hslip

end Slip

namespace Position

/-- How many operands are still to come. -/
def owed : Position → Nat
  | start | signed => 1
  | done => 0

/-- What is wrong if an operand begins here. -/
def begins : Position → List Slip
  | start | signed => []
  | done => [.surplus]

/-- What is wrong if a sign stands here. A sign stands before an atom, and so before no other sign. -/
def signs : Position → List Slip
  | start => []
  | signed => [.missing, .surplus]
  | done => [.surplus]

/-- What is wrong if an operand should have ended here. -/
def ends : Position → List Slip
  | start | signed => [.missing]
  | done => []

theorem owed_begins (p : Position) : p.owed + Slip.excess p.begins = 1 := by cases p <;> rfl

theorem owed_signs (p : Position) : p.owed + Slip.excess p.signs = 1 := by cases p <;> rfl

theorem owed_ends (p : Position) : p.owed + Slip.excess p.ends = 0 := by cases p <;> rfl

@[simp] theorem owed_start : start.owed = 1 := rfl

@[simp] theorem owed_signed : signed.owed = 1 := rfl

@[simp] theorem owed_done : done.owed = 0 := rfl

end Position

namespace Operator

theorem arity_eq_two {o : Operator} (hnegate : o ≠ negate) (hfactorial : o ≠ factorial) :
    o.arity = 2 := by
  cases o with
  | negate => exact absurd rfl hnegate
  | factorial => exact absurd rfl hfactorial
  | _ => rfl

theorem kind_of_arity {o : Operator} (h : o.arity = 2) :
    o = raise ∨ o ∈ additive ∨ o ∈ multiplicative := by
  cases o <;> revert h <;> decide

end Operator

namespace Lexeme

/-- What is wrong with lexemes from a place on, given for each open bracket, the innermost first, how
many separators it still awaits. Only the brackets of a function await any. -/
def slips : Position → List Nat → List Lexeme → List Slip
  | p, _, [] => p.ends
  | p, awaited, operand _ _ :: rest => p.begins ++ slips .done awaited rest
  | p, awaited, unknown _ :: rest => p.begins ++ slips .done awaited rest
  | p, awaited, operator .negate :: rest => p.signs ++ slips .signed awaited rest
  | p, awaited, operator .factorial :: rest => p.ends ++ slips .done awaited rest
  | p, awaited, operator _ :: rest => p.ends ++ slips .start awaited rest
  | p, awaited, function f :: _ :: opening _ :: rest =>
    p.begins ++ slips .start ((f.arity - 1) :: awaited) rest
  | p, awaited, function _ :: rest => p.begins ++ slips .done awaited rest
  | p, awaited, opening _ :: rest => p.begins ++ slips .start (0 :: awaited) rest
  | p, awaited, closing _ :: rest =>
    p.ends ++ (List.replicate (awaited.headD 0) .missing ++ slips .done awaited.tail rest)
  | p, (n + 1) :: awaited, separator :: rest => p.ends ++ slips .start (n :: awaited) rest
  | p, awaited, separator :: rest => p.ends ++ .surplus :: slips .start awaited rest

theorem slips_operator {o : Operator} (h : o.arity = 2) (p : Position) (awaited : List Nat)
    (rest : List Lexeme) :
    slips p awaited (operator o :: rest) = p.ends ++ slips .start awaited rest := by
  cases o with
  | negate | factorial => cases h
  | _ => rfl

theorem HasCalls.of_call {f : Function} {l : Lexeme} {o : String} {rest : List Lexeme}
    (h : HasCalls (function f :: l :: opening o :: rest)) :
    l = operator .juxtapose ∧ HasCalls rest := by
  obtain ⟨⟨o', ls, hls⟩, hrest⟩ := h
  obtain ⟨rfl, -⟩ := List.cons.inj hls
  exact ⟨rfl, hrest⟩

theorem IsBalanced.exists_cons {c : String} {rest : List Lexeme} {awaited : List Nat}
    (h : IsBalanced (closing c :: rest) awaited.length) : ∃ n outer, awaited = n :: outer := by
  cases awaited with
  | nil => exact h.elim
  | cons n outer => exact ⟨n, outer, rfl⟩

/-- What the lexemes add to the operands is what is still to come, with all that is surplus and
without what is missing. -/
theorem gain_payload {p : Position} {awaited : List Nat} {ls : List Lexeme} (hcalls : HasCalls ls)
    (hbuilding : ∀ l ∈ payload ls, l.IsBuilding) (hbalanced : IsBalanced ls awaited.length) :
    ((payload ls).map gain).sum = p.owed + awaited.sum + Slip.excess (slips p awaited ls) := by
  fun_induction slips p awaited ls with
  | case1 p awaited =>
    obtain rfl := List.length_eq_zero_iff.mp hbalanced
    simpa [payload] using p.owed_ends.symm
  | case2 p awaited text value rest ih =>
    have hrest := ih hcalls (List.forall_mem_cons.mp hbuilding).2 hbalanced
    have hbegins := p.owed_begins
    simp only [payload, List.map_cons, List.sum_cons, gain, Slip.excess_append, hrest,
      Position.owed_done]
    omega
  | case3 p awaited text rest ih => exact (List.forall_mem_cons.mp hbuilding).1.elim
  | case4 p awaited rest ih =>
    have hrest := ih hcalls (List.forall_mem_cons.mp hbuilding).2 hbalanced
    have hsigns := p.owed_signs
    simp only [payload, List.map_cons, List.sum_cons, gain, Operator.arity, Slip.excess_append, hrest,
      Position.owed_signed]
    omega
  | case5 p awaited rest ih =>
    have hrest := ih hcalls (List.forall_mem_cons.mp hbuilding).2 hbalanced
    have hends := p.owed_ends
    simp only [payload, List.map_cons, List.sum_cons, gain, Operator.arity, Slip.excess_append, hrest,
      Position.owed_done]
    omega
  | case6 p awaited o rest hnegate hfactorial ih =>
    have hrest := ih hcalls (List.forall_mem_cons.mp hbuilding).2 hbalanced
    have hends := p.owed_ends
    have harity := Operator.arity_eq_two hnegate hfactorial
    simp only [payload, List.map_cons, List.sum_cons, gain, harity, Slip.excess_append, hrest,
      Position.owed_start]
    omega
  | case7 p awaited f l o rest ih =>
    obtain ⟨rfl, hafter⟩ := hcalls.of_call
    have hrest := ih hafter (List.forall_mem_cons.mp hbuilding).2 hbalanced
    have hbegins := p.owed_begins
    have harity : 0 < f.arity := by cases f <;> decide
    simp only [payload, List.map_cons, List.sum_cons, gain, Slip.excess_append, hrest,
      Position.owed_start]
    omega
  | case8 p awaited f rest hcall ih =>
    obtain ⟨o, ls, rfl⟩ := hcalls.1
    exact (hcall _ _ _ rfl).elim
  | case9 p awaited o rest ih =>
    have hrest := ih hcalls hbuilding hbalanced
    have hbegins := p.owed_begins
    simp only [payload, Slip.excess_append, hrest, Position.owed_start, List.sum_cons]
    omega
  | case10 p awaited c rest ih =>
    obtain ⟨n, awaited, rfl⟩ := hbalanced.exists_cons
    have hrest := ih hcalls hbuilding hbalanced
    have hends := p.owed_ends
    simp only [payload, Slip.excess_append, Slip.excess_replicate_missing, hrest, Position.owed_done,
      List.sum_cons, List.headD_cons, List.tail_cons]
    omega
  | case11 p n awaited rest ih =>
    have hrest := ih hcalls hbuilding hbalanced
    have hends := p.owed_ends
    simp only [payload, Slip.excess_append, hrest, Position.owed_start, List.sum_cons]
    omega
  | case12 p awaited rest hnone ih =>
    have hrest := ih hcalls hbuilding hbalanced
    have hends := p.owed_ends
    simp only [payload, Slip.excess_append, Slip.excess_cons_surplus, hrest, Position.owed_start]
    omega

/-- Lexemes after which a power may follow and complete a sum: with the power they end in a product,
and any other product may stand in its place. -/
def Leads (ls : List Lexeme) : Prop :=
  ∀ p : Phrase .power, ∃ (before : List Lexeme) (l : Phrase .product),
    ls ++ p.lexemes = before ++ l.lexemes ∧
      ∀ r : Phrase .product, ∃ s : Phrase .sum, s.lexemes = before ++ r.lexemes

theorem leads_nil : Leads [] := fun p => ⟨[], .power p, rfl, fun r => ⟨.product r, rfl⟩⟩

theorem Leads.sum {ls : List Lexeme} (h : Leads ls) (u : Phrase .unary) :
    ∃ s : Phrase .sum, s.lexemes = ls ++ u.lexemes := by
  obtain ⟨before, l, hl, hsum⟩ := h (.unary u)
  obtain ⟨s, hs⟩ := hsum l
  exact ⟨s, hs.trans hl.symm⟩

theorem Leads.operator {ls : List Lexeme} (h : Leads ls) (u : Phrase .unary) {o : Operator}
    (ho : o.arity = 2) : Leads (ls ++ (u.lexemes ++ [.operator o])) := by
  intro p
  obtain ⟨before, l, hl, hsum⟩ := h (.unary u)
  rcases Operator.kind_of_arity ho with rfl | hadditive | hmultiplicative
  · -- the power takes the operand before it as its base
    obtain ⟨before, l, hl, hsum⟩ := h (.raise u p)
    exact ⟨before, l, by simpa [Phrase.lexemes] using hl, hsum⟩
  · obtain ⟨s, hs⟩ := hsum l
    refine ⟨before ++ (l.lexemes ++ [.operator o]), .power p, ?_, fun r => ?_⟩
    · simpa [Phrase.lexemes] using congrArg (· ++ .operator o :: p.lexemes) hl
    · exact ⟨.add s o hadditive r, by simp [Phrase.lexemes, hs]⟩
  · refine ⟨before, .multiply l o hmultiplicative p, ?_, hsum⟩
    simpa [Phrase.lexemes] using congrArg (· ++ .operator o :: p.lexemes) hl

/-- The beginning of a sentence up to a place where an operand begins, given for each open bracket how
many separators it still awaits. Inside a bracket stands the beginning of a sum, and so many sums with
a closing bracket after them complete an operand of what stands outside. -/
def AwaitsOperand : List Nat → List Lexeme → Prop
  | [], ls => Leads ls
  | n :: awaited, ls => ∃ outer inner, ls = outer ++ inner ∧ Leads inner ∧
      ∀ (args : Arguments (n + 1)) (c : String), ∃ (before : List Lexeme) (u : Phrase .unary),
        outer ++ (args.lexemes ++ [closing c]) = before ++ u.lexemes ∧ AwaitsOperand awaited before

/-- The beginning of a sentence up to the end of an operand. -/
def EndsOperand (awaited : List Nat) (ls : List Lexeme) : Prop :=
  ∃ (before : List Lexeme) (u : Phrase .unary),
    ls = before ++ u.lexemes ∧ AwaitsOperand awaited before

/-- The beginning of a sentence up to a place. -/
def Begins (awaited : List Nat) (ls : List Lexeme) : Position → Prop
  | .start => AwaitsOperand awaited ls
  | .signed => ∃ before, ls = before ++ [operator .negate] ∧ AwaitsOperand awaited before
  | .done => EndsOperand awaited ls

variable {p : Position} {awaited : List Nat} {before : List Lexeme} {n : Nat}

theorem EndsOperand.operator (h : EndsOperand awaited before) {o : Operator} (ho : o.arity = 2) :
    AwaitsOperand awaited (before ++ [.operator o]) := by
  obtain ⟨before, u, rfl, hbefore⟩ := h
  cases awaited with
  | nil => simpa [AwaitsOperand] using Leads.operator hbefore u ho
  | cons n awaited =>
    obtain ⟨outer, inner, rfl, hinner, houter⟩ := hbefore
    exact ⟨outer, _, by simp, hinner.operator u ho, houter⟩

theorem EndsOperand.factorial (h : EndsOperand awaited before) :
    EndsOperand awaited (before ++ [.operator .factorial]) := by
  obtain ⟨before, u, rfl, hbefore⟩ := h
  exact ⟨before, .factorial u, by simp [Phrase.lexemes], hbefore⟩

theorem EndsOperand.separator (h : EndsOperand ((n + 1) :: awaited) before) :
    AwaitsOperand (n :: awaited) (before ++ [.separator]) := by
  obtain ⟨before, u, rfl, outer, inner, rfl, hinner, houter⟩ := h
  obtain ⟨s, hs⟩ := hinner.sum u
  refine ⟨outer ++ (s.lexemes ++ [.separator]), [], by simp [hs], leads_nil, fun args c => ?_⟩
  obtain ⟨before, u, hbefore, h⟩ := houter (.cons s args) c
  exact ⟨before, u, by simpa [Arguments.lexemes] using hbefore, h⟩

theorem EndsOperand.closing (h : EndsOperand (0 :: awaited) before) (c : String) :
    EndsOperand awaited (before ++ [.closing c]) := by
  obtain ⟨before, u, rfl, outer, inner, rfl, hinner, houter⟩ := h
  obtain ⟨s, hs⟩ := hinner.sum u
  obtain ⟨before, u, hbefore, h⟩ := houter (.last s) c
  exact ⟨before, u, by simpa [Arguments.lexemes, hs] using hbefore, h⟩

theorem EndsOperand.sum (h : EndsOperand [] before) : ∃ s : Phrase .sum, s.lexemes = before := by
  obtain ⟨before, u, rfl, hbefore⟩ := h
  exact Leads.sum hbefore u

/-- An atom may stand where an operand begins, with a sign before it or without. -/
theorem Begins.atom (h : Begins awaited before p) (hp : p.begins = []) (a : Phrase .atom) :
    EndsOperand awaited (before ++ a.lexemes) := by
  cases p with
  | start => exact ⟨before, .atom a, rfl, h⟩
  | signed =>
    obtain ⟨before, rfl, hbefore⟩ := h
    exact ⟨before, .negation a, by simp [Phrase.lexemes], hbefore⟩
  | done => cases hp

/-- A bracket may open where an operand begins. -/
theorem Begins.opening (h : Begins awaited before p) (hp : p.begins = []) (o : String) :
    AwaitsOperand (0 :: awaited) (before ++ [.opening o]) := by
  refine ⟨before ++ [.opening o], [], by simp, leads_nil, fun args c => ?_⟩
  cases args with
  | last s =>
    obtain ⟨before', u, heq, h'⟩ := h.atom hp (.bracketed o c s)
    exact ⟨before', u, by simpa [Phrase.lexemes, Arguments.lexemes] using heq, h'⟩
  | cons s rest => cases rest

/-- A function may be called where an operand begins. -/
theorem Begins.call (h : Begins awaited before p) (hp : p.begins = []) (f : Function) (o : String) :
    AwaitsOperand ((f.arity - 1) :: awaited)
      (before ++ [.function f, .operator .juxtapose, .opening o]) := by
  refine ⟨before ++ [.function f, .operator .juxtapose, .opening o], [], by simp, leads_nil,
    fun args c => ?_⟩
  have harity : f.arity - 1 + 1 = f.arity := Nat.sub_add_cancel (by cases f <;> decide)
  generalize hm : f.arity - 1 + 1 = m at args
  obtain rfl : m = f.arity := hm.symm.trans harity
  obtain ⟨before', u, heq, h'⟩ := h.atom hp (.call f o c args)
  exact ⟨before', u, by simpa [Phrase.lexemes] using heq, h'⟩

theorem Begins.done_of_ends (h : Begins awaited before p) (hp : p.ends = []) :
    EndsOperand awaited before := by
  cases p with
  | done => exact h
  | _ => cases hp

theorem Begins.start_of_signs (h : Begins awaited before p) (hp : p.signs = []) :
    AwaitsOperand awaited before := by
  cases p with
  | start => exact h
  | _ => cases hp

/-- Lexemes without a slip complete the beginning of a sentence. -/
theorem exists_phrase_of_slips {ls : List Lexeme} (hcalls : HasCalls ls)
    (hbuilding : ∀ l ∈ payload ls, l.IsBuilding) (hbalanced : IsBalanced ls awaited.length)
    (hslips : slips p awaited ls = []) (h : Begins awaited before p) :
    ∃ s : Phrase .sum, s.lexemes = before ++ ls := by
  fun_induction slips p awaited ls generalizing before with
  | case1 p awaited =>
    obtain rfl := List.length_eq_zero_iff.mp hbalanced
    simpa using (h.done_of_ends hslips).sum
  | case2 p awaited text value rest ih =>
    obtain ⟨hp, hslips⟩ := List.append_eq_nil_iff.mp hslips
    have hrest := ih hcalls (List.forall_mem_cons.mp hbuilding).2 hbalanced hslips
      (h.atom hp (.operand text value))
    simpa [Phrase.lexemes] using hrest
  | case3 p awaited text rest ih => exact (List.forall_mem_cons.mp hbuilding).1.elim
  | case4 p awaited rest ih =>
    obtain ⟨hp, hslips⟩ := List.append_eq_nil_iff.mp hslips
    have hrest := ih hcalls (List.forall_mem_cons.mp hbuilding).2 hbalanced hslips
      ⟨before, rfl, h.start_of_signs hp⟩
    simpa using hrest
  | case5 p awaited rest ih =>
    obtain ⟨hp, hslips⟩ := List.append_eq_nil_iff.mp hslips
    have hrest := ih hcalls (List.forall_mem_cons.mp hbuilding).2 hbalanced hslips
      (h.done_of_ends hp).factorial
    simpa using hrest
  | case6 p awaited o rest hnegate hfactorial ih =>
    obtain ⟨hp, hslips⟩ := List.append_eq_nil_iff.mp hslips
    have harity := Operator.arity_eq_two hnegate hfactorial
    have hrest := ih hcalls (List.forall_mem_cons.mp hbuilding).2 hbalanced hslips
      ((h.done_of_ends hp).operator harity)
    simpa using hrest
  | case7 p awaited f l o rest ih =>
    obtain ⟨rfl, hafter⟩ := hcalls.of_call
    obtain ⟨hp, hslips⟩ := List.append_eq_nil_iff.mp hslips
    have hrest := ih hafter (List.forall_mem_cons.mp hbuilding).2 hbalanced hslips (h.call hp f o)
    simpa using hrest
  | case8 p awaited f rest hcall ih =>
    obtain ⟨o, ls, rfl⟩ := hcalls.1
    exact (hcall _ _ _ rfl).elim
  | case9 p awaited o rest ih =>
    obtain ⟨hp, hslips⟩ := List.append_eq_nil_iff.mp hslips
    have hrest := ih hcalls hbuilding hbalanced hslips (h.opening hp o)
    simpa using hrest
  | case10 p awaited c rest ih =>
    obtain ⟨n, awaited, rfl⟩ := hbalanced.exists_cons
    obtain ⟨hp, hslips⟩ := List.append_eq_nil_iff.mp hslips
    obtain ⟨hn, hslips⟩ := List.append_eq_nil_iff.mp hslips
    obtain rfl : n = 0 := by simpa using hn
    have hrest := ih hcalls hbuilding hbalanced hslips ((h.done_of_ends hp).closing c)
    simpa using hrest
  | case11 p n awaited rest ih =>
    obtain ⟨hp, hslips⟩ := List.append_eq_nil_iff.mp hslips
    have hrest := ih hcalls hbuilding hbalanced hslips (h.done_of_ends hp).separator
    simpa using hrest
  | case12 p awaited rest hnone ih => simp at hslips

end Lexeme

open Lexeme

theorem Phrase.slips_signed (awaited : List Nat) (rest : List Lexeme) (a : Phrase .atom) :
    slips .signed awaited (a.lexemes ++ rest) = slips .start awaited (a.lexemes ++ rest) := by
  cases a <;> rfl

/-- An operator between two parts that are in place. -/
theorem slips_binary {l r : List Lexeme} {o : Operator} {awaited : List Nat} {rest : List Lexeme}
    (ho : o.arity = 2) (hl : ∀ rest, slips .start awaited (l ++ rest) = slips .done awaited rest)
    (hr : slips .start awaited (r ++ rest) = slips .done awaited rest) :
    slips .start awaited (l ++ .operator o :: r ++ rest) = slips .done awaited rest := by
  rw [List.append_assoc, hl, List.cons_append, slips_operator ho, hr]
  rfl

mutual

theorem Phrase.slips_lexemes {t : Tier} (awaited : List Nat) (rest : List Lexeme) :
    (x : Phrase t) → slips .start awaited (x.lexemes ++ rest) = slips .done awaited rest
  | .operand _ _ => rfl
  | .bracketed o c s => by
    have hs := s.slips_lexemes (0 :: awaited) (closing c :: rest)
    simpa [Phrase.lexemes, slips, Position.begins, Position.ends] using hs
  | .call f o c args => by
    have hargs := args.slips_lexemes awaited (closing c :: rest)
    simpa [Phrase.lexemes, slips, Position.begins, Position.ends] using hargs
  | .atom a => a.slips_lexemes awaited rest
  | .negation a => (a.slips_signed awaited rest).trans (a.slips_lexemes awaited rest)
  | .factorial u => by
    have hu := u.slips_lexemes awaited (.operator .factorial :: rest)
    simpa [Phrase.lexemes, slips, Position.ends] using hu
  | .unary u => u.slips_lexemes awaited rest
  | .raise u p => slips_binary rfl (fun rest => u.slips_lexemes awaited rest)
      (p.slips_lexemes awaited rest)
  | .power p => p.slips_lexemes awaited rest
  | .multiply l _ h r => slips_binary (Operator.precedence_of_mem_multiplicative h).2.2
      (fun rest => l.slips_lexemes awaited rest) (r.slips_lexemes awaited rest)
  | .product p => p.slips_lexemes awaited rest
  | .add l _ h r => slips_binary (Operator.precedence_of_mem_additive h).2.2
      (fun rest => l.slips_lexemes awaited rest) (r.slips_lexemes awaited rest)

theorem Arguments.slips_lexemes {n : Nat} (awaited : List Nat) (rest : List Lexeme) :
    (args : Arguments n) →
      slips .start ((n - 1) :: awaited) (args.lexemes ++ rest) = slips .done (0 :: awaited) rest
  | .last s => s.slips_lexemes (0 :: awaited) rest
  | @Arguments.cons (n + 1) s args => by
    have hs := s.slips_lexemes ((n + 1) :: awaited) (separator :: (args.lexemes ++ rest))
    have hargs : slips .start (n :: awaited) _ = _ := args.slips_lexemes awaited rest
    simpa [Arguments.lexemes, slips, Position.ends, hargs] using hs

end

/-- A formula that is read has as much surplus as is missing, and if nothing is then it is a sentence
of the grammar, read as the grammar says. Only a text without any operand, operator and function is
read besides, as zero. -/
theorem Formula.isSentence_iff_of_parse (text : String) (t : Tree)
    (h : parse .standard text = .ok t) :
    let ls := ofUnits .standard (units .standard text)
    let found := slips .start [] ls
    payload ls = [] ∧ t = .zero ∨
      found.count .surplus = found.count .missing ∧
        (.surplus ∉ found ↔ ∃ s : Phrase .sum, s.lexemes = ls ∧ s.tree = .ok t) := by
  intro ls found
  obtain ⟨postfixed, hpostfix, hbuild⟩ := bind_eq_ok.mp h
  have hperm : postfixed.Perm (payload ls) := perm_of_toPostfix hpostfix
  have hcalls : HasCalls ls := hasCalls_ofUnits _
  have hbalanced : IsBalanced ls ([] : List Nat).length := isBalanced_of_toPostfix hpostfix
  obtain ⟨hbuilding, hgain⟩ := gain_of_build hbuild
  have hpayload : ∀ l ∈ payload ls, l.IsBuilding := fun l hl => hbuilding l (hperm.mem_iff.mpr hl)
  by_cases hnil : payload ls = []
  · rw [hnil, List.perm_nil] at hperm
    subst hperm
    exact .inl ⟨hnil, (Except.ok.inj hbuild).symm⟩
  have hexcess : Slip.excess found = 0 := by
    have haccount := gain_payload (p := .start) hcalls hpayload hbalanced
    have hone := hgain fun hpostfixed => hnil (by simpa [hpostfixed] using hperm.symm)
    rw [(hperm.map gain).sum_eq, haccount] at hone
    simpa using hone
  refine .inr ⟨Int.ofNat_inj.mp (Int.sub_eq_zero.mp hexcess), fun hsurplus => ?_, ?_⟩
  · obtain ⟨s, hs⟩ := exists_phrase_of_slips hcalls hpayload hbalanced
      (Slip.eq_nil_of_excess hexcess hsurplus) leads_nil
    obtain rfl : s.postorder = postfixed :=
      Except.ok.inj (s.toPostfix_lexemes.symm.trans (hs ▸ hpostfix))
    exact ⟨s, hs, s.build_postorder.symm.trans hbuild⟩
  · rintro ⟨s, hs, -⟩ hsurplus
    have hnone : found = [] := by
      have hslips := s.slips_lexemes [] []
      rwa [List.append_nil, hs] at hslips
    rw [hnone] at hsurplus
    cases hsurplus

/-- A separator outside of the brackets of a function leaves one operand too many, and an operator
without a right operand takes it. -/
theorem Formula.isSentence_iff_of_parse_of_stray_separator :
    let ls := ofUnits .standard (units .standard "1,2+")
    parse .standard "1,2+" = .ok (.number (.exact 3)) ∧
      slips .start [] ls = [.surplus, .missing] ∧
        ¬ ∃ s : Phrase .sum, s.lexemes = ls ∧ s.tree = .ok (.number (.exact 3)) := by
  have hparse : parse .standard "1,2+" = .ok (.number (.exact 3)) := by cbv
  have hunits : units .standard "1,2+" = ["1", ",", "2", "+"] := by rfl
  have hsentence := isSentence_iff_of_parse "1,2+" _ hparse
  rw [hunits] at hsentence ⊢
  refine ⟨hparse, rfl, fun hs => ?_⟩
  rcases hsentence with ⟨hnil, -⟩ | ⟨-, hiff⟩
  · cases hnil
  · exact hiff.mpr hs List.mem_cons_self

end SymbolicAlgebra
