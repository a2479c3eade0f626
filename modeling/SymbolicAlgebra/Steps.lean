import SymbolicAlgebra.Fault

/-!
# Sufficient steps

Rewriting is carried out within a number of steps and fails as `exhausted` where they do not
suffice. `withinSteps` starts with more steps than a computation ever takes in practice and, should
they not suffice, raises their number, from `n` to `2 ^ n` each time, until they do.
-/

namespace SymbolicAlgebra

variable {α : Type}

instance : Nonempty (Except Fault α) := ⟨.error .exhausted⟩

/-- Runs something within a number of steps: the number to go on with if they do not suffice, and the
outcome otherwise. -/
def attempt (run : Nat → Except Fault α) (steps : Nat) : Nat ⊕ Except Fault α :=
  match run steps with
  | .error .exhausted => .inl (Nat.pow 2 steps)
  | outcome => .inr outcome

/-- Runs something within a number of steps, and again within more of them as long as they do not
suffice. -/
def untilEnough (run : Nat → Except Fault α) (steps : Nat) : Except Fault α := do
  ← repeatM (fun n => return attempt run n) steps

/-- The number of steps to begin with, `2 ^ 62`. -/
def initialSteps : Nat := 4611686018427387904

/-- Runs something within as many steps as suffice. -/
def withinSteps (run : Nat → Except Fault α) : Except Fault α := untilEnough run initialSteps

theorem untilEnough_of_ne_exhausted {run : Nat → Except Fault α} {steps : Nat}
    (h : run steps ≠ .error .exhausted) : untilEnough run steps = run steps := by
  have hattempt : attempt run steps = .inr (run steps) := by
    unfold attempt
    split
    · next he => exact absurd he h
    · rfl
  rw [untilEnough, repeatM_eq_of_monadTail, repeatM.body, hattempt]
  rfl

theorem untilEnough_of_exhausted {run : Nat → Except Fault α} {steps : Nat}
    (h : run steps = .error .exhausted) :
    untilEnough run steps = untilEnough run (Nat.pow 2 steps) := by
  have hattempt : attempt run steps = .inl (Nat.pow 2 steps) := by rw [attempt, h]
  rw [untilEnough, repeatM_eq_of_monadTail, repeatM.body, hattempt]
  rfl

theorem withinSteps_of_ne_exhausted {run : Nat → Except Fault α}
    (h : run initialSteps ≠ .error .exhausted) : withinSteps run = run initialSteps :=
  untilEnough_of_ne_exhausted h

end SymbolicAlgebra
