import Mathlib.Data.List.Forall2
import SymbolicAlgebra.Fault

/-!
# Outcomes

When a computation that may fail has a result, and when a pass over a list has one.
-/

namespace SymbolicAlgebra.Outcome

variable {ε α β : Type}

@[simp] theorem ok_bind (a : α) (f : α → Except ε β) : (Except.ok a >>= f) = f a := rfl

@[simp] theorem map_ok (f : α → β) (a : α) : (f <$> (Except.ok a : Except ε α)) = .ok (f a) := rfl

@[simp] theorem pure_eq_ok (a : α) : (pure a : Except ε α) = .ok a := rfl

@[simp] theorem throw_eq_error (e : ε) : (throw e : Except ε α) = .error e := rfl

theorem isOk_iff {x : Except ε α} : x.isOk = true ↔ ∃ a, x = .ok a := by
  cases x <;> simp [Except.isOk, Except.toBool]

theorem bind_eq_ok {x : Except ε α} {f : α → Except ε β} {b : β} :
    (x >>= f) = .ok b ↔ ∃ a, x = .ok a ∧ f a = .ok b := by
  cases x with
  | error e => simp [bind, Except.bind]
  | ok a => simp

theorem bind_eq_error {x : Except ε α} {f : α → Except ε β} {e : ε} :
    (x >>= f) = .error e ↔ x = .error e ∨ ∃ a, x = .ok a ∧ f a = .error e := by
  cases x with
  | error e' => simp [bind, Except.bind]
  | ok a => simp

theorem map_eq_ok {x : Except ε α} {f : α → β} {b : β} :
    (f <$> x) = .ok b ↔ ∃ a, x = .ok a ∧ f a = b := by
  cases x with
  | error e => simp [Functor.map, Except.map]
  | ok a => simp

theorem mapM_eq_ok_map {f : α → Except ε β} {g : α → β} {l : List α}
    (h : ∀ a ∈ l, f a = .ok (g a)) : l.mapM f = .ok (l.map g) := by
  induction l with
  | nil => rfl
  | cons a l ih =>
    obtain ⟨ha, hl⟩ := List.forall_mem_cons.mp h
    simp [List.mapM_cons, ha, ih hl]

theorem mapM_ok {f : α → Except ε β} {R : α → β → Prop} {l : List α}
    (h : ∀ a ∈ l, ∃ b, f a = .ok b ∧ R a b) : ∃ bs, l.mapM f = .ok bs ∧ List.Forall₂ R l bs := by
  induction l with
  | nil => exact ⟨[], rfl, .nil⟩
  | cons a l ih =>
    obtain ⟨⟨b, hb, hab⟩, hl⟩ := List.forall_mem_cons.mp h
    obtain ⟨bs, hbs, hall⟩ := ih hl
    exact ⟨b :: bs, by simp [List.mapM_cons, hb, hbs], .cons hab hall⟩

theorem foldlM_ok {σ : Type} {f : σ → α → Except ε σ} {P : σ → Prop} {l : List α} {s : σ}
    (hs : P s) (h : ∀ s, ∀ a ∈ l, P s → ∃ s', f s a = .ok s' ∧ P s') :
    ∃ s', l.foldlM f s = .ok s' ∧ P s' := by
  induction l generalizing s with
  | nil => exact ⟨s, rfl, hs⟩
  | cons a l ih =>
    obtain ⟨s', hs', hP⟩ := h s a List.mem_cons_self hs
    obtain ⟨s'', hs'', hP'⟩ := ih hP fun s b hb => h s b (List.mem_cons_of_mem _ hb)
    exact ⟨s'', by simp [List.foldlM_cons, hs', hs''], hP'⟩

/-- A fold that keeps a property of its state at every step has it at the end. -/
theorem foldlM_keeps {σ : Type} {f : σ → α → Except ε σ} {P : σ → Prop} {l : List α} {s s' : σ}
    (h : l.foldlM f s = .ok s') (hs : P s)
    (hstep : ∀ s, ∀ a ∈ l, ∀ s', P s → f s a = .ok s' → P s') : P s' := by
  induction l generalizing s with
  | nil =>
    obtain rfl := Except.ok.inj h
    exact hs
  | cons a l ih =>
    rw [List.foldlM_cons] at h
    obtain ⟨s₁, hs₁, h⟩ := bind_eq_ok.mp h
    exact ih h (hstep s a List.mem_cons_self s₁ hs hs₁) fun s b hb =>
      hstep s b (List.mem_cons_of_mem _ hb)

theorem foldlM_error {σ : Type} {f : σ → α → Except ε σ} {P : ε → Prop} {l : List α} {s : σ} {e : ε}
    (hstep : ∀ s a e, f s a = .error e → P e) (h : l.foldlM f s = .error e) : P e := by
  induction l generalizing s with
  | nil => cases h
  | cons a l ih =>
    rw [List.foldlM_cons] at h
    rcases bind_eq_error.mp h with ha | ⟨s', -, h⟩
    · exact hstep s a e ha
    · exact ih h

/-- Each result of a pass over a list comes from a member of the list. -/
theorem mem_mapM {f : α → Except ε β} {l : List α} {bs : List β} (h : l.mapM f = .ok bs) {b : β}
    (hb : b ∈ bs) : ∃ a ∈ l, f a = .ok b := by
  induction l generalizing bs with
  | nil =>
    obtain rfl := Except.ok.inj h
    simp at hb
  | cons a l ih =>
    rw [List.mapM_cons] at h
    obtain ⟨b', hb', h⟩ := bind_eq_ok.mp h
    obtain ⟨bs', hbs', h⟩ := bind_eq_ok.mp h
    obtain rfl := Except.ok.inj h
    rcases List.mem_cons.mp hb with rfl | hb
    · exact ⟨a, List.mem_cons_self, hb'⟩
    · obtain ⟨a', ha', hab⟩ := ih hbs' hb
      exact ⟨a', List.mem_cons_of_mem _ ha', hab⟩

theorem length_mapM {f : α → Except ε β} {l : List α} {bs : List β} (h : l.mapM f = .ok bs) :
    bs.length = l.length := by
  induction l generalizing bs with
  | nil =>
    obtain rfl := Except.ok.inj h
    rfl
  | cons a l ih =>
    rw [List.mapM_cons] at h
    obtain ⟨b, -, h⟩ := bind_eq_ok.mp h
    obtain ⟨bs', hbs', h⟩ := bind_eq_ok.mp h
    obtain rfl := Except.ok.inj h
    exact congrArg (· + 1) (ih hbs')

theorem filterM_eq_ok_filter {f : α → Except ε Bool} {g : α → Bool} {l : List α}
    (h : ∀ a ∈ l, f a = .ok (g a)) : l.filterM f = .ok (l.filter g) := by
  have haux : ∀ (l acc : List α), (∀ a ∈ l, f a = .ok (g a)) →
      List.filterAuxM f l acc = .ok ((l.filter g).reverse ++ acc) := by
    intro l acc h
    induction l generalizing acc with
    | nil => rfl
    | cons a l ih =>
      obtain ⟨ha, hl⟩ := List.forall_mem_cons.mp h
      rw [List.filterAuxM, ha, ok_bind, ih _ hl]
      cases hg : g a <;> simp [hg]
  simp [List.filterM, haux l [] h]

theorem filterAuxM_eq_map (f : α → Except ε Bool) (l acc : List α) :
    List.filterAuxM f l acc = (· ++ acc) <$> List.filterAuxM f l [] := by
  induction l generalizing acc with
  | nil => rfl
  | cons a l ih =>
    simp only [List.filterAuxM]
    cases f a with
    | error e => rfl
    | ok b =>
      simp only [ok_bind]
      rw [ih, ih (bif b then [a] else [])]
      cases b <;> cases List.filterAuxM f l [] <;> simp [Functor.map, Except.map]

theorem filterM_cons_eq_ok {f : α → Except ε Bool} {a : α} {l r : List α} :
    (a :: l).filterM f = .ok r ↔
      ∃ b s, f a = .ok b ∧ l.filterM f = .ok s ∧ r = if b then a :: s else s := by
  simp only [List.filterM, List.filterAuxM]
  cases f a with
  | error e => simp [bind, Except.bind]
  | ok b =>
    simp only [ok_bind]
    rw [filterAuxM_eq_map]
    cases List.filterAuxM f l [] with
    | error e => simp [Functor.map, Except.map, bind, Except.bind]
    | ok s => cases b <;> simp [Functor.map, Except.map, eq_comm]

theorem mem_of_mem_filterM {f : α → Except ε Bool} {l r : List α} (h : l.filterM f = .ok r) {a : α}
    (ha : a ∈ r) : a ∈ l := by
  induction l generalizing r with
  | nil =>
    obtain rfl := Except.ok.inj h
    exact ha
  | cons b l ih =>
    obtain ⟨keeps, s, -, hs, rfl⟩ := filterM_cons_eq_ok.mp h
    cases keeps with
    | false => exact List.mem_cons_of_mem _ (ih hs ha)
    | true =>
      rcases List.mem_cons.mp ha with rfl | ha
      · exact List.mem_cons_self
      · exact List.mem_cons_of_mem _ (ih hs ha)

end SymbolicAlgebra.Outcome
