import SymbolicAlgebra.Proofs.Overflow

/-!
# Runs that finish

A run that is given a number of steps finishes if some number suffices and any larger one leads to the
same outcome. Runs that are carried out one after another finish if each of them does. A worklist
finishes if its steps do and every item is replaced by items of lower height only: the items of the
greatest height go away one by one, and what is left is of lower height.
-/

namespace SymbolicAlgebra.Outcome

variable {α β σ ι : Type}

/-- Some number of steps suffices for the outcome, and any larger number leads to it too. -/
def FinishesAs (run : Nat → Except Fault α) (outcome : Except Fault α) : Prop :=
  outcome ≠ .error .exhausted ∧ ∃ enough, ∀ n, enough ≤ n → run n = outcome

variable {F : Fault → Prop}

/-- From some number of steps on the run has one and the same result or one of the given faults. -/
def FinishesWith (F : Fault → Prop) (run : Nat → Except Fault α) : Prop :=
  ∃ outcome, FailsOnly F outcome ∧ ∃ enough, ∀ n, enough ≤ n → run n = outcome

/-- A run that finishes with a result or an overflow. -/
abbrev Finishes (run : Nat → Except Fault α) : Prop := FinishesWith (· = .overflow) run

theorem FailsOnly.finishes {x : Except Fault α} (h : FailsOnly F x) : FinishesWith F fun _ => x :=
  ⟨x, h, 0, fun _ _ => rfl⟩

theorem FinishesWith.ok (a : α) : FinishesWith F fun _ => .ok a := (FailsOnly.ok a).finishes

theorem FinishesWith.mono {G : Fault → Prop} {run : Nat → Except Fault α} (h : FinishesWith F run)
    (hFG : ∀ e, F e → G e) : FinishesWith G run := by
  obtain ⟨r, hr, hrun⟩ := h
  exact ⟨r, hr.mono hFG, hrun⟩

theorem FinishesWith.of_succ {run : Nat → Except Fault α}
    (h : FinishesWith F fun n => run (n + 1)) : FinishesWith F run := by
  obtain ⟨r, hr, enough, hrun⟩ := h
  refine ⟨r, hr, enough + 1, fun n hn => ?_⟩
  obtain ⟨k, rfl⟩ : ∃ k, n = k + 1 := ⟨n - 1, by omega⟩
  exact hrun k (by omega)

theorem FinishesWith.bind {x : Nat → Except Fault α} {f : Nat → α → Except Fault β}
    (hx : FinishesWith F x) (hf : ∀ n a, x n = .ok a → FinishesWith F fun n => f n a) :
    FinishesWith F fun n => x n >>= f n := by
  obtain ⟨r, hr, enough, hx⟩ := hx
  cases r with
  | error e =>
    refine ⟨.error e, .error (hr e rfl), enough, fun n hn => ?_⟩
    change x n >>= f n = _
    rw [hx n hn]
    rfl
  | ok a =>
    obtain ⟨r', hr', enough', hf⟩ := hf enough a (hx enough le_rfl)
    refine ⟨r', hr', max enough enough', fun n hn => ?_⟩
    change x n >>= f n = _
    rw [hx n ((le_max_left _ _).trans hn)]
    exact hf n ((le_max_right _ _).trans hn)

theorem FinishesWith.map {x : Nat → Except Fault α} (hx : FinishesWith F x) (f : α → β) :
    FinishesWith F fun n => f <$> x n := hx.bind fun _ a _ => .ok (f a)

theorem FinishesWith.mapM {f : Nat → α → Except Fault β} {l : List α}
    (h : ∀ a ∈ l, FinishesWith F fun n => f n a) : FinishesWith F fun n => l.mapM (f n) := by
  induction l with
  | nil => exact .ok []
  | cons a l ih =>
    obtain ⟨ha, hl⟩ := List.forall_mem_cons.mp h
    simp only [List.mapM_cons]
    exact ha.bind fun _ b _ => (ih hl).bind fun _ bs _ => .ok _

theorem FinishesWith.foldlM {f : Nat → σ → α → Except Fault σ} {P : σ → Prop} {l : List α} {s : σ}
    (hs : P s) (hkeep : ∀ n s s', ∀ a ∈ l, P s → f n s a = .ok s' → P s')
    (h : ∀ s, ∀ a ∈ l, P s → FinishesWith F fun n => f n s a) :
    FinishesWith F fun n => l.foldlM (f n) s := by
  induction l generalizing s with
  | nil => exact .ok s
  | cons a l ih =>
    simp only [List.foldlM_cons]
    refine (h s a List.mem_cons_self hs).bind fun n s' hs' => ?_
    exact ih (hkeep n s s' a List.mem_cons_self hs hs')
      (fun n s s' b hb => hkeep n s s' b (List.mem_cons_of_mem _ hb))
      fun s b hb => h s b (List.mem_cons_of_mem _ hb)

/-- Enough steps and enough rounds lead to one and the same outcome. -/
def LoopFinishes (F : Fault → Prop) (loop : Nat → Nat → σ → List ι → Except Fault σ) (s : σ)
    (items : List ι) : Prop :=
  ∃ r, FailsOnly F r ∧ ∃ enough, ∀ n k, enough ≤ n → enough ≤ k → loop n k s items = r

theorem LoopFinishes.cons {step : Nat → σ → ι → Except Fault (σ × List ι)}
    {loop : Nat → Nat → σ → List ι → Except Fault σ}
    (hcons : ∀ n k s i rest, loop n (k + 1) s (i :: rest) =
      step n s i >>= fun (s', more) => loop n k s' (rest ++ more))
    {s : σ} {i : ι} {rest : List ι} (hstep : FinishesWith F fun n => step n s i)
    (hrest : ∀ n s' more, step n s i = .ok (s', more) → LoopFinishes F loop s' (rest ++ more)) :
    LoopFinishes F loop s (i :: rest) := by
  obtain ⟨r, hr, enough, hstep⟩ := hstep
  have hunfold : ∀ n k, enough ≤ n → 1 ≤ k → loop n k s (i :: rest) =
      r >>= fun (s', more) => loop n (k - 1) s' (rest ++ more) := by
    intro n k hn hk
    obtain ⟨k, rfl⟩ : ∃ j, k = j + 1 := ⟨k - 1, by omega⟩
    have hr : step n s i = r := hstep n hn
    rw [hcons, hr]
    rfl
  cases r with
  | error e =>
    refine ⟨.error e, .error (hr e rfl), enough + 1, fun n k hn hk => ?_⟩
    rw [hunfold n k (by omega) (by omega)]
    rfl
  | ok a =>
    obtain ⟨s', more⟩ := a
    obtain ⟨r', hr', enough', hloop⟩ := hrest enough s' more (hstep enough le_rfl)
    refine ⟨r', hr', max enough enough' + 1, fun n k hn hk => ?_⟩
    rw [hunfold n k (by omega) (by omega)]
    exact hloop n (k - 1) (by omega) (by omega)

/-- A worklist finishes whose steps replace an item by items of lower height. -/
theorem FinishesWith.worklist (step : Nat → σ → ι → Except Fault (σ × List ι))
    (loop : Nat → Nat → σ → List ι → Except Fault σ) (Good : σ → Prop) {Admits : ι → Prop}
    (height : ι → Nat) (bound : Nat) (hnil : ∀ n k s, loop n k s [] = .ok s)
    (hcons : ∀ n k s i rest, loop n (k + 1) s (i :: rest) =
      step n s i >>= fun (s', more) => loop n k s' (rest ++ more))
    (hbound : ∀ i, Admits i → height i ≤ bound)
    (hstep : ∀ s i, Good s → Admits i → FinishesWith F fun n => step n s i)
    (hkeep : ∀ n s i s' more, Good s → Admits i → step n s i = .ok (s', more) →
      Good s' ∧ ∀ j ∈ more, Admits j ∧ height j < height i)
    {s : σ} {items : List ι} (hs : Good s) (hitems : ∀ i ∈ items, Admits i) :
    FinishesWith F fun n => loop n n s items := by
  have hloop : ∀ (h : Nat) (first later : List ι) (s : σ), Good s →
      (∀ i ∈ first, Admits i ∧ height i ≤ h) → (∀ i ∈ later, Admits i ∧ height i < h) →
      LoopFinishes F loop s (first ++ later) := by
    intro h
    induction h using Nat.strong_induction_on with
    | _ h ihh =>
    -- the items of the greatest height are worked through from the front
    intro first
    induction first with
    | cons i first ih =>
      intro later s hs hfirst hlater
      obtain ⟨⟨hi, hle⟩, hfirst⟩ := List.forall_mem_cons.mp hfirst
      refine LoopFinishes.cons hcons (hstep s i hs hi) fun n s' more hsome => ?_
      obtain ⟨hs', hmore⟩ := hkeep n s i s' more hs hi hsome
      change LoopFinishes F loop s' (first ++ later ++ more)
      rw [List.append_assoc]
      refine ih (later ++ more) s' hs' hfirst (List.forall_mem_append.mpr ⟨hlater, fun j hj => ?_⟩)
      exact ⟨(hmore j hj).1, (hmore j hj).2.trans_le hle⟩
    | nil =>
      intro later s hs _ hlater
      cases later with
      | nil => exact ⟨.ok s, .ok s, 0, fun n k _ _ => hnil n k s⟩
      | cons i later =>
        have hpos : 0 < h := (Nat.zero_le _).trans_lt (hlater i List.mem_cons_self).2
        have hrest := ihh (h - 1) (Nat.sub_one_lt hpos.ne') (i :: later) [] s hs
          (fun j hj => ⟨(hlater j hj).1, Nat.le_sub_one_of_lt (hlater j hj).2⟩) (by simp)
        rwa [List.append_nil] at hrest
  obtain ⟨r, hr, enough, h⟩ := hloop bound items [] s hs
    (fun i hi => ⟨hitems i hi, hbound i (hitems i hi)⟩) (by simp)
  rw [List.append_nil] at h
  exact ⟨r, hr, enough, fun n hn => h n n hn hn⟩

end SymbolicAlgebra.Outcome
