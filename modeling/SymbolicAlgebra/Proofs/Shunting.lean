import SymbolicAlgebra.Proofs.Grammar

/-!
# The reader follows the grammar

Shunting the lexemes of a phrase leaves some of its operators on the stack: `Waits k` says that
nothing but operators of precedence `k` or more is left. A phrase never touches the stack below it
as long as that is `Guarded`, so what it adds to output and stack does not depend on its
surroundings. The main statement is that the lexemes of a sentence come out in postorder and build
the tree of the sentence.
-/

namespace SymbolicAlgebra

namespace Tier

/-- The least precedence of an operator that a phrase leaves on the stack. -/
def least : Tier → Nat
  | sum => 1
  | product => 2
  | power => 3
  | unary => 4
  | atom => 5

/-- The highest precedence of an operator that may stand on the stack below a phrase. A raising
operator may stand below a power, since it is right associative. -/
def below : Tier → Nat
  | sum => 0
  | product => 1
  | power | unary => 3
  | atom => 4

end Tier

namespace Operator

theorem precedence_of_mem_additive {o : Operator} (h : o ∈ additive) :
    o.precedence = 1 ∧ o.isRightAssociative = false ∧ o.arity = 2 := by
  simp only [additive, List.mem_cons, List.not_mem_nil, or_false] at h
  rcases h with rfl | rfl <;> exact ⟨rfl, rfl, rfl⟩

theorem precedence_of_mem_multiplicative {o : Operator} (h : o ∈ multiplicative) :
    o.precedence = 2 ∧ o.isRightAssociative = false ∧ o.arity = 2 := by
  simp only [multiplicative, List.mem_cons, List.not_mem_nil, or_false] at h
  rcases h with rfl | rfl | rfl | rfl <;> exact ⟨rfl, rfl, rfl⟩

end Operator

namespace Lexeme

/-- Nothing but operators of at least some precedence. -/
def Waits (k : Nat) (pending : List Lexeme) : Prop :=
  ∀ l ∈ pending, ∃ o : Operator, l = operator o ∧ k ≤ o.precedence

/-- On top of the stack stands no function and no operator above some precedence. -/
def Guarded (k : Nat) : List Lexeme → Prop
  | operator o :: _ => o.precedence ≤ k
  | function _ :: _ => False
  | _ => True

theorem waits_nil (k : Nat) : Waits k [] := by simp [Waits]

theorem Waits.mono {j k : Nat} {pending : List Lexeme} (h : Waits k pending) (hjk : j ≤ k) :
    Waits j pending := by
  intro l hl
  obtain ⟨o, rfl, ho⟩ := h l hl
  exact ⟨o, rfl, Nat.le_trans hjk ho⟩

theorem Waits.append {k : Nat} {p q : List Lexeme} (hp : Waits k p) (hq : Waits k q) :
    Waits k (p ++ q) := by
  intro l hl
  rcases List.mem_append.mp hl with h | h
  · exact hp l h
  · exact hq l h

theorem waits_singleton {k : Nat} {o : Operator} (h : k ≤ o.precedence) :
    Waits k [operator o] := by
  intro l hl
  exact ⟨o, List.mem_singleton.mp hl, h⟩

theorem Guarded.mono {j k : Nat} {stack : List Lexeme} (h : Guarded j stack) (hjk : j ≤ k) :
    Guarded k stack := by
  unfold Guarded at h ⊢
  split <;> simp_all
  omega

/-- An operator finds all waiting ones in its way that bind no looser, and stops above a stack that
is guarded against it. -/
theorem split_yields {o : Operator} {k : Nat} {pending stack : List Lexeme}
    (hp : Waits k pending) (hk : o.precedence < k ∨
      o.precedence = k ∧ o.isRightAssociative = false)
    (hs : ∀ l ∈ stack.head?, yields o l = false) :
    (pending ++ stack).takeWhile (yields o) = pending ∧
      (pending ++ stack).dropWhile (yields o) = stack := by
  have hpending : ∀ l ∈ pending, yields o l = true := by
    intro l hl
    obtain ⟨top, rfl, htop⟩ := hp l hl
    by_cases hlt : o.precedence < top.precedence
    · simp [yields, hlt]
    · have heq : top.precedence = o.precedence := by omega
      have hright : o.isRightAssociative = false := by
        rcases hk with hk | ⟨_, hright⟩
        · omega
        · exact hright
      simp [yields, heq, hright]
  have hstack : stack.takeWhile (yields o) = [] ∧ stack.dropWhile (yields o) = stack := by
    cases stack with
    | nil => exact ⟨rfl, rfl⟩
    | cons l stack => simp [hs l rfl]
  rw [List.takeWhile_append_of_pos hpending, List.dropWhile_append_of_pos hpending, hstack.1,
    hstack.2, List.append_nil]
  exact ⟨rfl, rfl⟩

theorem Guarded.not_yields {o : Operator} {k : Nat} {stack : List Lexeme} (h : Guarded k stack)
    (hk : k < o.precedence ∨ k = o.precedence ∧ o.isRightAssociative = true) :
    ∀ l ∈ stack.head?, yields o l = false := by
  intro l hl
  cases stack with
  | nil => simp at hl
  | cons top stack =>
    obtain rfl : top = l := by simpa using hl
    cases top with
    | operator top =>
      have htop : top.precedence ≤ k := h
      rcases hk with hk | ⟨hk, hright⟩
      · have hne : top.precedence ≠ o.precedence := by omega
        have hle : top.precedence ≤ o.precedence := by omega
        simp [yields, hne, hle]
      · have hle : top.precedence ≤ o.precedence := by omega
        simp [yields, hle, hright]
    | _ => rfl

theorem shunt_operator {o : Operator} {j k : Nat} {pending stack : List Lexeme}
    (rest output : List Lexeme) (hp : Waits k pending)
    (hk : o.precedence < k ∨ o.precedence = k ∧ o.isRightAssociative = false)
    (hs : Guarded j stack)
    (hj : j < o.precedence ∨ j = o.precedence ∧ o.isRightAssociative = true) :
    shunt (operator o :: rest) (pending ++ stack) output =
      shunt rest (operator o :: stack) (pending.reverse ++ output) := by
  obtain ⟨htake, hdrop⟩ := split_yields hp hk (hs.not_yields hj)
  rw [shunt, htake, hdrop]

theorem split_isOperator {k : Nat} {pending : List Lexeme} (hp : Waits k pending) (o : String)
    (stack : List Lexeme) :
    (pending ++ opening o :: stack).takeWhile isOperator = pending ∧
      (pending ++ opening o :: stack).dropWhile isOperator = opening o :: stack := by
  have hpending : ∀ l ∈ pending, isOperator l = true := by
    intro l hl
    obtain ⟨top, rfl, _⟩ := hp l hl
    rfl
  rw [List.takeWhile_append_of_pos hpending, List.dropWhile_append_of_pos hpending]
  simp [isOperator]

theorem shunt_separator {k : Nat} {pending : List Lexeme} (hp : Waits k pending) (o : String)
    (rest stack output : List Lexeme) :
    shunt (separator :: rest) (pending ++ opening o :: stack) output =
      shunt rest (opening o :: stack) (pending.reverse ++ output) := by
  obtain ⟨htake, hdrop⟩ := split_isOperator hp o stack
  rw [shunt, htake, hdrop]

theorem split_isOpening {k : Nat} {pending : List Lexeme} (hp : Waits k pending) (o : String)
    (stack : List Lexeme) :
    (pending ++ opening o :: stack).takeWhile (!·.isOpening) = pending ∧
      (pending ++ opening o :: stack).dropWhile (!·.isOpening) = opening o :: stack := by
  have hpending : ∀ l ∈ pending, (!isOpening l) = true := by
    intro l hl
    obtain ⟨top, rfl, _⟩ := hp l hl
    rfl
  rw [List.takeWhile_append_of_pos hpending, List.dropWhile_append_of_pos hpending]
  simp [isOpening]

theorem shunt_closing {j k : Nat} {pending stack : List Lexeme} (hp : Waits k pending)
    (hs : Guarded j stack) (o c : String) (rest output : List Lexeme) :
    shunt (closing c :: rest) (pending ++ opening o :: stack) output =
      shunt rest stack (pending.reverse ++ output) := by
  obtain ⟨htake, hdrop⟩ := split_isOpening hp o stack
  rw [shunt, close, htake, hdrop]
  cases stack with
  | nil => rfl
  | cons top stack =>
    cases top with
    | function f => exact hs.elim
    | _ => rfl

theorem shunt_closing_call {k : Nat} {pending : List Lexeme} (hp : Waits k pending)
    (f : Function) (o c : String) (rest stack output : List Lexeme) :
    shunt (closing c :: rest) (pending ++ opening o :: function f :: stack) output =
      shunt rest stack (function f :: (pending.reverse ++ output)) := by
  obtain ⟨htake, hdrop⟩ := split_isOpening hp o (function f :: stack)
  rw [shunt, close, htake, hdrop]
  rfl

/-- What shunting makes of the lexemes of a phrase, whatever follows them and wherever they stand:
some of the postorder has come out and the rest waits. -/
def Shunts (t : Tier) (lexemes postorder : List Lexeme) : Prop :=
  ∃ pending done : List Lexeme, Waits t.least pending ∧ postorder = done.reverse ++ pending ∧
    ∀ rest stack output : List Lexeme, Guarded t.below stack →
      shunt (lexemes ++ rest) stack output = shunt rest (pending ++ stack) (done ++ output)

/-- The lexemes within brackets, whose operators all wait above the opening one. -/
def ShuntsWithin (lexemes postorder : List Lexeme) : Prop :=
  ∃ pending done : List Lexeme, Waits 1 pending ∧ postorder = done.reverse ++ pending ∧
    ∀ (rest : List Lexeme) (o : String) (stack output : List Lexeme),
      shunt (lexemes ++ rest) (opening o :: stack) output =
        shunt rest (pending ++ opening o :: stack) (done ++ output)

theorem Shunts.weaken {s t : Tier} {lexemes postorder : List Lexeme}
    (h : Shunts s lexemes postorder) (hleast : t.least ≤ s.least) (hbelow : t.below ≤ s.below) :
    Shunts t lexemes postorder := by
  obtain ⟨pending, done, hp, hpost, hrun⟩ := h
  exact ⟨pending, done, hp.mono hleast, hpost,
    fun rest stack output hs => hrun rest stack output (hs.mono hbelow)⟩

theorem Shunts.within {lexemes postorder : List Lexeme} (h : Shunts .sum lexemes postorder) :
    ShuntsWithin lexemes postorder := by
  obtain ⟨pending, done, hp, hpost, hrun⟩ := h
  exact ⟨pending, done, hp, hpost,
    fun rest o stack output => hrun rest (opening o :: stack) output trivial⟩

theorem shunts_operand (text : String) (value : Tree) :
    Shunts .atom [operand text value] [operand text value] :=
  ⟨[], [operand text value], waits_nil _, rfl, fun _ _ _ _ => rfl⟩

theorem ShuntsWithin.bracketed {lexemes postorder : List Lexeme} (h : ShuntsWithin lexemes postorder)
    (o c : String) : Shunts .atom (opening o :: (lexemes ++ [closing c])) postorder := by
  obtain ⟨pending, done, hp, hpost, hrun⟩ := h
  refine ⟨[], pending.reverse ++ done, waits_nil _, by simp [hpost], ?_⟩
  intro rest stack output hs
  calc
    _ = shunt (lexemes ++ closing c :: rest) (opening o :: stack) output := by
      simp [shunt]
    _ = shunt (closing c :: rest) (pending ++ opening o :: stack) (done ++ output) :=
      hrun _ _ _ _
    _ = shunt rest stack (pending.reverse ++ (done ++ output)) :=
      shunt_closing hp hs o c rest _
    _ = _ := by simp

theorem ShuntsWithin.call {lexemes postorder : List Lexeme} (h : ShuntsWithin lexemes postorder)
    (f : Function) (o c : String) (l : Lexeme) :
    Shunts .atom (function f :: l :: opening o :: (lexemes ++ [closing c]))
      (postorder ++ [function f]) := by
  obtain ⟨pending, done, hp, hpost, hrun⟩ := h
  refine ⟨[], function f :: (pending.reverse ++ done), waits_nil _, by simp [hpost], ?_⟩
  intro rest stack output _
  calc
    _ = shunt (lexemes ++ closing c :: rest) (opening o :: function f :: stack) output := by
      simp [shunt]
    _ = shunt (closing c :: rest) (pending ++ opening o :: function f :: stack)
          (done ++ output) := hrun _ _ _ _
    _ = shunt rest stack (function f :: (pending.reverse ++ (done ++ output))) :=
      shunt_closing_call hp f o c rest stack _
    _ = _ := by simp

theorem ShuntsWithin.separator {lexemes postorder lexemes' postorder' : List Lexeme}
    (h : ShuntsWithin lexemes postorder) (h' : ShuntsWithin lexemes' postorder') :
    ShuntsWithin (lexemes ++ separator :: lexemes') (postorder ++ postorder') := by
  obtain ⟨pending, done, hp, hpost, hrun⟩ := h
  obtain ⟨pending', done', hp', hpost', hrun'⟩ := h'
  refine ⟨pending', done' ++ (pending.reverse ++ done), hp', by simp [hpost, hpost'], ?_⟩
  intro rest o stack output
  calc
    _ = shunt (lexemes ++ Lexeme.separator :: (lexemes' ++ rest)) (opening o :: stack) output := by
      simp
    _ = shunt (Lexeme.separator :: (lexemes' ++ rest)) (pending ++ opening o :: stack)
          (done ++ output) := hrun _ _ _ _
    _ = shunt (lexemes' ++ rest) (opening o :: stack) (pending.reverse ++ (done ++ output)) :=
      shunt_separator hp o _ _ _
    _ = shunt rest (pending' ++ opening o :: stack)
          (done' ++ (pending.reverse ++ (done ++ output))) := hrun' _ _ _ _
    _ = _ := by simp

theorem Shunts.prefixed {lexemes postorder : List Lexeme} (h : Shunts .atom lexemes postorder) :
    Shunts .unary (operator .negate :: lexemes) (postorder ++ [operator .negate]) := by
  obtain ⟨pending, done, hp, hpost, hrun⟩ := h
  refine ⟨pending ++ [operator .negate], done, ?_, by simp [hpost], ?_⟩
  · exact (hp.mono (by decide)).append (waits_singleton (by decide))
  · intro rest stack output hs
    calc
      _ = shunt (lexemes ++ rest) (operator .negate :: stack) output :=
        shunt_operator (lexemes ++ rest) output (waits_nil 5) (by decide) hs (by decide)
      _ = shunt rest (pending ++ operator .negate :: stack) (done ++ output) := by
        apply hrun
        show Operator.negate.precedence ≤ Tier.atom.below
        decide
      _ = _ := by simp

theorem Shunts.postfixed {lexemes postorder : List Lexeme} (h : Shunts .unary lexemes postorder) :
    Shunts .unary (lexemes ++ [operator .factorial]) (postorder ++ [operator .factorial]) := by
  obtain ⟨pending, done, hp, hpost, hrun⟩ := h
  refine ⟨[operator .factorial], pending.reverse ++ done, waits_singleton (by decide),
    by simp [hpost], ?_⟩
  intro rest stack output hs
  calc
    _ = shunt (lexemes ++ operator .factorial :: rest) stack output := by simp
    _ = shunt (operator .factorial :: rest) (pending ++ stack) (done ++ output) :=
      hrun _ _ _ hs
    _ = shunt rest (operator .factorial :: stack) (pending.reverse ++ (done ++ output)) :=
      shunt_operator rest _ hp (by decide) hs (by decide)
    _ = _ := by simp

/-- A binary operator between two phrases. It finds all that waits of the left one, and the right
one does not touch it. -/
theorem Shunts.binary {t l r : Tier} {o : Operator} {left right lefts rights : List Lexeme}
    (hl : Shunts l left lefts) (hr : Shunts r right rights)
    (hguard : t.below ≤ l.below)
    (hwaits : o.precedence < l.least ∨ o.precedence = l.least ∧ o.isRightAssociative = false)
    (hstays : t.below < o.precedence ∨ t.below = o.precedence ∧ o.isRightAssociative = true)
    (hright : o.precedence ≤ r.below) (hleast : t.least ≤ r.least)
    (hself : t.least ≤ o.precedence) :
    Shunts t (left ++ operator o :: right) (lefts ++ rights ++ [operator o]) := by
  obtain ⟨pending, done, hp, hpost, hrun⟩ := hl
  obtain ⟨pending', done', hp', hpost', hrun'⟩ := hr
  refine ⟨pending' ++ [operator o], done' ++ (pending.reverse ++ done), ?_,
    by simp [hpost, hpost'], ?_⟩
  · exact (hp'.mono hleast).append (waits_singleton hself)
  · intro rest stack output hs
    calc
      _ = shunt (left ++ operator o :: (right ++ rest)) stack output := by simp
      _ = shunt (operator o :: (right ++ rest)) (pending ++ stack) (done ++ output) :=
        hrun _ _ _ (hs.mono hguard)
      _ = shunt (right ++ rest) (operator o :: stack) (pending.reverse ++ (done ++ output)) :=
        shunt_operator _ _ hp hwaits hs hstays
      _ = shunt rest (pending' ++ operator o :: stack)
            (done' ++ (pending.reverse ++ (done ++ output))) := hrun' _ _ _ hright
      _ = _ := by simp

end Lexeme

open Lexeme

mutual

theorem Phrase.shunts {t : Tier} : (p : Phrase t) → Shunts t p.lexemes p.postorder
  | .operand text value => shunts_operand text value
  | .bracketed o c s => s.shunts.within.bracketed o c
  | .call f o c args => args.shunts.call f o c _
  | .atom a => a.shunts.weaken (by decide) (by decide)
  | .negation a => a.shunts.prefixed
  | .factorial u => u.shunts.postfixed
  | .unary u => u.shunts.weaken (by decide) (by decide)
  | .raise u p => u.shunts.binary p.shunts (by decide) (by decide) (by decide) (by decide)
      (by decide) (by decide)
  | .power p => p.shunts.weaken (by decide) (by decide)
  | .multiply l o h r => by
    obtain ⟨hprec, hassoc, _⟩ := Operator.precedence_of_mem_multiplicative h
    exact l.shunts.binary r.shunts (by decide) (.inr ⟨hprec, hassoc⟩)
      (.inl (by simp [hprec, Tier.below])) (by simp [hprec, Tier.below]) (by decide)
      (by simp [hprec, Tier.least])
  | .product p => p.shunts.weaken (by decide) (by decide)
  | .add l o h r => by
    obtain ⟨hprec, hassoc, _⟩ := Operator.precedence_of_mem_additive h
    exact l.shunts.binary r.shunts (by decide) (.inr ⟨hprec, hassoc⟩)
      (.inl (by simp [hprec, Tier.below])) (by simp [hprec, Tier.below]) (by decide)
      (by simp [hprec, Tier.least])

theorem Arguments.shunts {n : Nat} : (args : Arguments n) →
    ShuntsWithin args.lexemes args.postorder
  | .last s => s.shunts.within
  | .cons s rest => s.shunts.within.separator rest.shunts

end

theorem Phrase.toPostfix_lexemes (s : Phrase .sum) : toPostfix s.lexemes = .ok s.postorder := by
  obtain ⟨pending, done, hp, hpost, hrun⟩ := s.shunts
  have hnone : pending.find? isOpening = none := by
    rw [List.find?_eq_none]
    intro l hl
    obtain ⟨o, rfl, _⟩ := hp l hl
    simp [isOpening]
  have hend := hrun [] [] [] trivial
  rw [List.append_nil, List.append_nil, List.append_nil] at hend
  rw [toPostfix, hend, shunt, unload, hnone, hpost]
  rfl

namespace Lexeme

theorem takeOperands?_reverse_append {count : Nat} {taken operands : List Tree}
    (h : taken.length = count) :
    takeOperands? count (taken.reverse ++ operands) = some (taken, operands) := by
  subst h
  simp [takeOperands?]

theorem buildStep_operator {o : Operator} {taken : List Tree} (operands : List Tree)
    (h : taken.length = o.arity) :
    buildStep (taken.reverse ++ operands) (operator o) = do return (← o.apply taken) :: operands := by
  rw [buildStep, takeOperands?_reverse_append h]

theorem buildStep_function {f : Function} {taken : List Tree} (operands : List Tree)
    (h : taken.length = f.arity) :
    buildStep (taken.reverse ++ operands) (function f) = .ok (.call f taken :: operands) := by
  rw [buildStep, takeOperands?_reverse_append h]
  rfl

end Lexeme

theorem Arguments.length_trees {n : Nat} :
    (args : Arguments n) → {ts : List Tree} → args.trees = .ok ts → ts.length = n
  | .last s, ts, h => by
    cases hs : s.tree with
    | error fault => simp [Arguments.trees, hs, bind, Except.bind] at h
    | ok t =>
      simp only [Arguments.trees, hs] at h
      cases h
      rfl
  | .cons s rest, ts, h => by
    cases hs : s.tree with
    | error fault => simp [Arguments.trees, hs, bind, Except.bind] at h
    | ok t =>
      cases hrest : rest.trees with
      | error fault => simp [Arguments.trees, hs, hrest, bind, Except.bind] at h
      | ok us =>
        simp only [Arguments.trees, hs, hrest] at h
        cases h
        simp [rest.length_trees hrest]

namespace Lexeme

/-- What building makes of some lexemes in postorder, whatever operands came before: it adds trees,
the latest first. -/
def Builds (postorder : List Lexeme) (trees : Except Fault (List Tree)) : Prop :=
  ∀ operands : List Tree,
    postorder.foldlM buildStep operands = do return (← trees).reverse ++ operands

theorem builds_operand (text : String) (value : Tree) :
    Builds [operand text value] (.ok [value]) := fun _ => rfl

theorem Builds.append {p q : List Lexeme} {ss ts : Except Fault (List Tree)} (hp : Builds p ss)
    (hq : Builds q ts) : Builds (p ++ q) (do return (← ss) ++ (← ts)) := by
  intro operands
  rw [List.foldlM_append, hp]
  cases ss with
  | error fault => rfl
  | ok ss =>
    change q.foldlM buildStep (ss.reverse ++ operands) = _
    rw [hq]
    cases ts with
    | error fault => rfl
    | ok ts => simp [bind, Except.bind, pure, Except.pure]

theorem Builds.operator {p : List Lexeme} {ts : Except Fault (List Tree)} (hp : Builds p ts)
    (o : Operator) (hlength : ∀ us, ts = .ok us → us.length = o.arity) :
    Builds (p ++ [.operator o]) (do return [← o.apply (← ts)]) := by
  intro operands
  rw [List.foldlM_append, hp]
  cases ts with
  | error fault => rfl
  | ok ts =>
    change [Lexeme.operator o].foldlM buildStep (ts.reverse ++ operands) = _
    rw [List.foldlM_cons, buildStep_operator operands (hlength ts rfl)]
    simp only [bind, Except.bind, pure, Except.pure]
    cases o.apply ts <;> rfl

theorem Builds.function {p : List Lexeme} {ts : Except Fault (List Tree)} (hp : Builds p ts)
    (f : Function) (hlength : ∀ us, ts = .ok us → us.length = f.arity) :
    Builds (p ++ [.function f]) (do return [.call f (← ts)]) := by
  intro operands
  rw [List.foldlM_append, hp]
  cases ts with
  | error fault => rfl
  | ok ts =>
    change [Lexeme.function f].foldlM buildStep (ts.reverse ++ operands) = _
    rw [List.foldlM_cons, buildStep_function operands (hlength ts rfl)]
    rfl

theorem Builds.unary {p : List Lexeme} {t : Except Fault Tree} (hp : Builds p (do return [← t]))
    {o : Operator} (ho : o.arity = 1) :
    Builds (p ++ [.operator o]) (do return [← (do o.apply [← t])]) := by
  have h := hp.operator o (by
    intro us hus
    cases t with
    | error fault => cases hus
    | ok t => cases hus; exact ho.symm)
  cases t <;> exact h

theorem Builds.binary {p q : List Lexeme} {s t : Except Fault Tree}
    (hp : Builds p (do return [← s])) (hq : Builds q (do return [← t])) {o : Operator}
    (ho : o.arity = 2) :
    Builds (p ++ q ++ [.operator o]) (do return [← (do o.apply [← s, ← t])]) := by
  have h := (hp.append hq).operator o (by
    intro us hus
    cases s with
    | error fault => cases hus
    | ok s =>
      cases t with
      | error fault => cases hus
      | ok t => cases hus; exact ho.symm)
  cases s with
  | error fault => exact h
  | ok s => cases t <;> exact h

end Lexeme

mutual

theorem Phrase.builds {t : Tier} : (p : Phrase t) → Builds p.postorder (do return [← p.tree])
  | .operand text value => builds_operand text value
  | .bracketed _ _ s => s.builds
  | .call f _ _ args => by
    have h := args.builds.function f fun us hus => args.length_trees hus
    rw [Phrase.postorder, Phrase.tree]
    cases hts : args.trees with
    | error fault => rw [hts] at h; exact h
    | ok ts => rw [hts] at h; exact h
  | .atom a => a.builds
  | .negation a => a.builds.unary rfl
  | .factorial u => u.builds.unary rfl
  | .unary u => u.builds
  | .raise u p => u.builds.binary p.builds rfl
  | .power p => p.builds
  | .multiply l _ h r => l.builds.binary r.builds (Operator.precedence_of_mem_multiplicative h).2.2
  | .product p => p.builds
  | .add l _ h r => l.builds.binary r.builds (Operator.precedence_of_mem_additive h).2.2

theorem Arguments.builds {n : Nat} : (args : Arguments n) → Builds args.postorder args.trees
  | .last s => s.builds
  | .cons s rest => by
    have h := s.builds.append rest.builds
    rw [Arguments.postorder, Arguments.trees]
    cases hs : s.tree with
    | error fault => rw [hs] at h; exact h
    | ok t => rw [hs] at h; exact h

end

theorem Phrase.build_postorder (s : Phrase .sum) : build s.postorder = s.tree := by
  rw [build, s.builds]
  cases s.tree <;> rfl

/-- The lexemes of a sentence are read as the grammar says. -/
theorem Phrase.toPostfix_build_lexemes (s : Phrase .sum) :
    toPostfix s.lexemes = .ok s.postorder ∧ build s.postorder = s.tree :=
  ⟨s.toPostfix_lexemes, s.build_postorder⟩

end SymbolicAlgebra
