import SymbolicAlgebra.Proofs.Outcome
import SymbolicAlgebra.Simplify

/-!
# What a step of a queue can do

Looking up a base finds the exponent of one of the factors, and setting one changes no other factor.
A step of the queue of a product folds its item into the coefficients, gathers it, or puts other
items into the queue. A step of the queue of a sum drops its term, combines it with others, or puts
the terms of a sum into the queue. What every step keeps is kept by the run of the queue.
-/

namespace SymbolicAlgebra

open Outcome

namespace Factor

theorem exponentOf?_eq_some {fs : List Factor} {b e : Tree} (h : exponentOf? fs b = some e) :
    ∃ f ∈ fs, f.exponent = e := by
  obtain ⟨f, hf, he⟩ := Option.map_eq_some_iff.mp h
  exact ⟨f, List.mem_of_find?_eq_some hf, he⟩

theorem mem_setExponent {b e : Tree} {fs : List Factor} {f : Factor}
    (h : f ∈ setExponent b e fs) : f ∈ fs ∨ f = ⟨b, e⟩ ∨ ∃ g ∈ fs, f = ⟨g.base, e⟩ := by
  induction fs with
  | nil => exact .inr (.inl (List.mem_singleton.mp h))
  | cons g fs ih =>
    rw [setExponent] at h
    split at h
    · rcases List.mem_cons.mp h with rfl | h
      · exact .inr (.inr ⟨g, List.mem_cons_self, rfl⟩)
      · exact .inl (List.mem_cons_of_mem _ h)
    · rcases List.mem_cons.mp h with rfl | h
      · exact .inl List.mem_cons_self
      · rcases ih h with h | h | ⟨g', hg', h⟩
        · exact .inl (List.mem_cons_of_mem _ h)
        · exact .inr (.inl h)
        · exact .inr (.inr ⟨g', List.mem_cons_of_mem _ hg', h⟩)

end Factor

variable {canonical : Tree → Except Fault Tree}

namespace Product

theorem fold_sides {p p' : Product} {v : Value} {onTop : Bool} (hp' : p.fold v onTop = .ok p') :
    p'.top = p.top ∧ p'.bottom = p.bottom := by
  unfold fold at hp'
  split at hp' <;>
  · obtain ⟨w, -, hp'⟩ := bind_eq_ok.mp hp'
    obtain rfl := Except.ok.inj hp'
    exact ⟨rfl, rfl⟩

theorem multiplyBy_sides {p p' : Product} {n d : Value} {onTop : Bool}
    (hp' : p.multiplyBy n d onTop = .ok p') : p'.top = p.top ∧ p'.bottom = p.bottom := by
  obtain ⟨m, -, hp'⟩ := bind_eq_ok.mp hp'
  obtain ⟨d, -, hp'⟩ := bind_eq_ok.mp hp'
  obtain rfl := Except.ok.inj hp'
  exact ⟨rfl, rfl⟩

/-- A step folds the item into the coefficients, gathers it on its side, or puts the powers of the
factors of a term into the queue. -/
theorem step_cases {p p' : Product} {item : Item} {more : List Item}
    (hstep : p.step canonical item = .ok (p', more)) :
    ∃ f, item.factor.normalize canonical = .ok f ∧
      ((p'.top = p.top ∧ p'.bottom = p.bottom) ∧ more = [] ∨
        p.gather canonical f item.onTop = .ok p' ∧ more = [] ∨
        (p'.top = p.top ∧ p'.bottom = p.bottom) ∧ ∃ t power top bottom, f.base = .term t ∧
          raised t.top power = .ok top ∧ raised t.bottom power = .ok bottom ∧
          more = items top bottom item.onTop) := by
  obtain ⟨f, hf, hstep⟩ := bind_eq_ok.mp hstep
  refine ⟨f, hf, ?_⟩
  have hgather : (do return (← p.gather canonical f item.onTop, []) :
      Except Fault (Product × List Item)) = .ok (p', more) →
        p.gather canonical f item.onTop = .ok p' ∧ more = [] := by
    intro hstep
    obtain ⟨p₁, hp₁, hstep⟩ := bind_eq_ok.mp hstep
    obtain ⟨rfl, rfl⟩ : p₁ = p' ∧ [] = more := by simpa using hstep
    exact ⟨hp₁, rfl⟩
  obtain ⟨zero, -, hstep⟩ := bind_eq_ok.mp hstep
  cases zero with
  | true =>
    obtain ⟨rfl, rfl⟩ : p = p' ∧ [] = more := by simpa using hstep
    exact .inl ⟨⟨rfl, rfl⟩, rfl⟩
  | false =>
    obtain ⟨value?, -, hstep⟩ := bind_eq_ok.mp hstep
    cases value? with
    | some v =>
      obtain ⟨p₁, hp₁, hstep⟩ := bind_eq_ok.mp hstep
      obtain ⟨rfl, rfl⟩ : p₁ = p' ∧ [] = more := by simpa using hstep
      exact .inl ⟨fold_sides hp₁, rfl⟩
    | none =>
      obtain ⟨integer?, -, hstep⟩ := bind_eq_ok.mp hstep
      split at hstep
      · next t power hbase =>
        obtain ⟨joins, -, hstep⟩ := bind_eq_ok.mp hstep
        cases joins with
        | false => exact .inr (.inl (hgather hstep))
        | true =>
          obtain ⟨n, -, hstep⟩ := bind_eq_ok.mp hstep
          obtain ⟨d, -, hstep⟩ := bind_eq_ok.mp hstep
          obtain ⟨p₁, hp₁, hstep⟩ := bind_eq_ok.mp hstep
          obtain ⟨top, htop, hstep⟩ := bind_eq_ok.mp hstep
          obtain ⟨bottom, hbottom, hstep⟩ := bind_eq_ok.mp hstep
          obtain ⟨rfl, rfl⟩ : p₁ = p' ∧ items top bottom item.onTop = more := by simpa using hstep
          exact .inr (.inr ⟨multiplyBy_sides hp₁, t, power, top, bottom, hbase, htop, hbottom, rfl⟩)
      · exact .inr (.inl (hgather hstep))

theorem mem_raised {fs gs : List Factor} {power : Int} {g : Factor} (h : raised fs power = .ok gs)
    (hg : g ∈ gs) :
    ∃ f ∈ fs, g.base = f.base ∧ f.exponent.multiply (.number (.exact power)) = .ok g.exponent := by
  obtain ⟨f, hf, hg⟩ := mem_mapM h hg
  obtain ⟨e, he, hg⟩ := bind_eq_ok.mp hg
  obtain rfl := Except.ok.inj hg
  exact ⟨f, hf, rfl, he⟩

theorem forall_mem_items {top bottom : List Factor} {onTop : Bool} {R : Factor → Prop}
    (h : ∀ f ∈ top ++ bottom, R f) : ∀ i ∈ items top bottom onTop, R i.factor := by
  obtain ⟨htop, hbottom⟩ := List.forall_mem_append.mp h
  intro i hi
  rcases List.mem_append.mp hi with hi | hi
  · obtain ⟨f, hf, rfl⟩ := List.mem_map.mp hi
    exact htop f hf
  · obtain ⟨f, hf, rfl⟩ := List.mem_map.mp hi
    exact hbottom f hf

/-- A run keeps what every step keeps, if the items that a step puts into the queue are of the same
kind as those in it. -/
theorem run_keeps {P : Product → Prop} {R : Factor → Prop}
    (hkeeps : ∀ {p p' : Product} {item : Item} {more : List Item},
      p.step canonical item = .ok (p', more) → P p → R item.factor →
        P p' ∧ ∀ i ∈ more, R i.factor)
    {steps : Nat} {p p' : Product} {items : List Item}
    (hrun : run canonical steps p items = .ok p') (hp : P p) (hitems : ∀ i ∈ items, R i.factor) :
    P p' := by
  induction steps generalizing p items with
  | zero =>
    cases items with
    | nil =>
      obtain rfl := Except.ok.inj hrun
      exact hp
    | cons item rest => cases hrun
  | succ steps ih =>
    cases items with
    | nil =>
      obtain rfl := Except.ok.inj hrun
      exact hp
    | cons item rest =>
      obtain ⟨hitem, hrest⟩ := List.forall_mem_cons.mp hitems
      obtain ⟨⟨p₁, more⟩, hstep, hrun⟩ := bind_eq_ok.mp hrun
      obtain ⟨hp₁, hmore⟩ := hkeeps hstep hp hitem
      exact ih hrun hp₁ (List.forall_mem_append.mpr ⟨hrest, hmore⟩)

end Product

namespace Term

/-- Adds one term of a queue to those that are combined, with the terms that go to the end of the
queue if the term turns out to be a sum. -/
def combineStep (steps : Nat) (canonical : Tree → Except Fault Tree) (combined : List Term)
    (t : Term) : Except Fault (List Term × List Term) := do
  let t ← t.simplifyBy steps canonical
  match ← t.reduce with
  | .sum terms => return (combined, terms)
  | _ =>
    if ← t.isZero then return (combined, [])
    else return (← combine steps canonical combined t, [])

theorem combineAll_cons (steps k : Nat) (combined : List Term) (t : Term) (pending : List Term) :
    combineAll steps canonical (k + 1) combined (t :: pending) =
      combineStep steps canonical combined t >>= fun (combined, more) =>
        combineAll steps canonical k combined (pending ++ more) := by
  rw [combineAll, combineStep]
  cases t.simplifyBy steps canonical with
  | error e => rfl
  | ok u =>
    simp only [ok_bind]
    have hrest : (do
        if ← u.isZero then combineAll steps canonical k combined pending
        else combineAll steps canonical k (← combine steps canonical combined u) pending) =
        (do
          if ← u.isZero then return (combined, [])
          else return (← combine steps canonical combined u, []) :
            Except Fault (List Term × List Term)) >>= fun (combined, more) =>
              combineAll steps canonical k combined (pending ++ more) := by
      cases u.isZero with
      | error e => rfl
      | ok zero =>
        cases zero with
        | true => simp
        | false => cases combine steps canonical combined u <;> simp [bind, Except.bind]
    cases u.reduce with
    | error e => rfl
    | ok c =>
      cases c with
      | sum terms => rfl
      | _ => exact hrest

/-- Combining a term with others adds it to the first one, if they are like, or goes on to the rest. -/
theorem combine_cons_cases {steps : Nat} {other : Term} {rest combined' : List Term} {t : Term}
    (h : combine steps canonical (other :: rest) t = .ok combined') :
    (other.isLike t = true ∧ ∃ sum u total, other.add t = .ok sum ∧ sum.toTerm = .ok u ∧
      u.simplifyBy steps canonical = .ok total ∧
        (total.isZero = .ok true ∧ combined' = rest ∨
          total.isZero = .ok false ∧ combined' = total :: rest)) ∨
      other.isLike t = false ∧ ∃ rest', combine steps canonical rest t = .ok rest' ∧
        combined' = other :: rest' := by
  unfold combine at h
  split at h
  · next hlike =>
    obtain ⟨sum, hsum, h⟩ := bind_eq_ok.mp h
    obtain ⟨u, hu, h⟩ := bind_eq_ok.mp h
    obtain ⟨total, htotal, h⟩ := bind_eq_ok.mp h
    obtain ⟨zero, hzero, h⟩ := bind_eq_ok.mp h
    refine .inl ⟨hlike, sum, u, total, hsum, hu, htotal, ?_⟩
    cases zero with
    | true => exact .inl ⟨hzero, (Except.ok.inj h).symm⟩
    | false => exact .inr ⟨hzero, (Except.ok.inj h).symm⟩
  · next hlike =>
    obtain ⟨rest', hrest', h⟩ := bind_eq_ok.mp h
    exact .inr ⟨by simpa using hlike, rest', hrest', (Except.ok.inj h).symm⟩

/-- A step puts the terms of the sum that its term turns out to be into the queue, drops a zero, or
combines the term with the others. -/
theorem combineStep_cases {steps : Nat} {combined combined' more : List Term} {t : Term}
    (hstep : combineStep steps canonical combined t = .ok (combined', more)) :
    ∃ u c, t.simplifyBy steps canonical = .ok u ∧ u.reduce = .ok c ∧
      (c = .sum more ∧ combined' = combined ∨ (∀ ts, c ≠ .sum ts) ∧ more = [] ∧
        (u.isZero = .ok true ∧ combined' = combined ∨
          u.isZero = .ok false ∧ combine steps canonical combined u = .ok combined')) := by
  obtain ⟨u, hu, hstep⟩ := bind_eq_ok.mp hstep
  obtain ⟨c, hc, hstep⟩ := bind_eq_ok.mp hstep
  refine ⟨u, c, hu, hc, ?_⟩
  split at hstep
  · obtain ⟨rfl, rfl⟩ : combined = combined' ∧ _ = more := by simpa using hstep
    exact .inl ⟨rfl, rfl⟩
  · next hnot =>
    obtain ⟨zero, hzero, hstep⟩ := bind_eq_ok.mp hstep
    cases zero with
    | true =>
      obtain ⟨rfl, rfl⟩ : combined = combined' ∧ [] = more := by simpa using hstep
      exact .inr ⟨hnot, rfl, .inl ⟨hzero, rfl⟩⟩
    | false =>
      obtain ⟨combined₁, hcombined₁, hstep⟩ := bind_eq_ok.mp hstep
      obtain ⟨rfl, rfl⟩ : combined₁ = combined' ∧ [] = more := by simpa using hstep
      exact .inr ⟨hnot, rfl, .inr ⟨hzero, hcombined₁⟩⟩

/-- Working through the queue keeps what every step keeps, if the terms that a step puts into the
queue are of the same kind as those in it. -/
theorem combineAll_keeps {P : List Term → Prop} {R : Term → Prop} {steps : Nat}
    (hkeeps : ∀ {combined combined' more : List Term} {t : Term},
      combineStep steps canonical combined t = .ok (combined', more) → P combined → R t →
        P combined' ∧ ∀ s ∈ more, R s)
    {k : Nat} {combined pending combined' : List Term}
    (hrun : combineAll steps canonical k combined pending = .ok combined') (hcombined : P combined)
    (hpending : ∀ t ∈ pending, R t) : P combined' := by
  induction k generalizing combined pending with
  | zero =>
    cases pending with
    | nil =>
      obtain rfl := Except.ok.inj hrun
      exact hcombined
    | cons t pending => cases hrun
  | succ k ih =>
    cases pending with
    | nil =>
      obtain rfl := Except.ok.inj hrun
      exact hcombined
    | cons t pending =>
      obtain ⟨ht, hpending⟩ := List.forall_mem_cons.mp hpending
      rw [combineAll_cons] at hrun
      obtain ⟨⟨combined₁, more⟩, hstep, hrun⟩ := bind_eq_ok.mp hrun
      obtain ⟨hcombined₁, hmore⟩ := hkeeps hstep hcombined ht
      exact ih hrun hcombined₁ (List.forall_mem_append.mpr ⟨hpending, hmore⟩)

end Term

end SymbolicAlgebra
