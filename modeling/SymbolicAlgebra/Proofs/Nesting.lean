import SymbolicAlgebra.Proofs.Building

/-!
# Levels and heights

The level of a tree counts how deep exponents are nested in exponents, and its height how deep bases,
sums and arguments are nested, exponents left out. What is computed of exponents never has a higher
level than they have, and unwrapping and folding make neither level nor height any higher.
-/

namespace SymbolicAlgebra

open Outcome

mutual

/-- The nesting of exponents. Only a number has none: a term has its placeholders. -/
def Tree.level : Tree → Nat
  | .number _ => 0
  | .constant _ | .variable _ => 1
  | .power f => f.level
  | .term t => t.level
  | .sum ts => Term.highestLevel ts
  | .call _ args => Tree.highestLevel args

def Factor.level : Factor → Nat
  | ⟨base, exponent⟩ => max base.level (1 + exponent.level)

def Term.level : Term → Nat
  | ⟨_, _, top, bottom⟩ => max (Factor.highestLevel top) (Factor.highestLevel bottom)

def Factor.highestLevel : List Factor → Nat
  | [] => 1
  | f :: rest => max f.level (Factor.highestLevel rest)

def Term.highestLevel : List Term → Nat
  | [] => 1
  | t :: rest => max t.level (Term.highestLevel rest)

def Tree.highestLevel : List Tree → Nat
  | [] => 1
  | t :: rest => max t.level (Tree.highestLevel rest)

end

mutual

/-- The nesting of bases, sums and arguments. -/
def Tree.height : Tree → Nat
  | .number _ | .constant _ | .variable _ => 0
  | .power f => f.height
  | .term t => t.height
  | .sum ts => 1 + Term.highestHeight ts
  | .call _ args => 1 + Tree.highestHeight args

def Factor.height : Factor → Nat
  | ⟨base, _⟩ => 1 + base.height

def Term.height : Term → Nat
  | ⟨_, _, top, bottom⟩ => max (Factor.highestHeight top) (Factor.highestHeight bottom)

def Factor.highestHeight : List Factor → Nat
  | [] => 1
  | f :: rest => max f.height (Factor.highestHeight rest)

def Term.highestHeight : List Term → Nat
  | [] => 1
  | t :: rest => max t.height (Term.highestHeight rest)

def Tree.highestHeight : List Tree → Nat
  | [] => 0
  | t :: rest => max t.height (Tree.highestHeight rest)

end

section
variable {l h : Nat}

theorem Factor.highestLevel_le {fs : List Factor} :
    highestLevel fs ≤ l ↔ 1 ≤ l ∧ ∀ f ∈ fs, f.level ≤ l := by
  induction fs with
  | nil => simp [highestLevel]
  | cons f fs ih => simp [highestLevel, ih, and_left_comm]

theorem Term.highestLevel_le {ts : List Term} :
    highestLevel ts ≤ l ↔ 1 ≤ l ∧ ∀ t ∈ ts, t.level ≤ l := by
  induction ts with
  | nil => simp [highestLevel]
  | cons t ts ih => simp [highestLevel, ih, and_left_comm]

theorem Tree.highestLevel_le {ts : List Tree} :
    highestLevel ts ≤ l ↔ 1 ≤ l ∧ ∀ t ∈ ts, t.level ≤ l := by
  induction ts with
  | nil => simp [highestLevel]
  | cons t ts ih => simp [highestLevel, ih, and_left_comm]

theorem Term.level_le {t : Term} :
    t.level ≤ l ↔ 1 ≤ l ∧ ∀ f ∈ t.top ++ t.bottom, f.level ≤ l := by
  obtain ⟨m, d, top, bottom⟩ := t
  simp only [level, max_le_iff, Factor.highestLevel_le, List.forall_mem_append]
  tauto

theorem Factor.highestHeight_le {fs : List Factor} :
    highestHeight fs ≤ h ↔ 1 ≤ h ∧ ∀ f ∈ fs, f.height ≤ h := by
  induction fs with
  | nil => simp [highestHeight]
  | cons f fs ih => simp [highestHeight, ih, and_left_comm]

theorem Term.highestHeight_le {ts : List Term} :
    highestHeight ts ≤ h ↔ 1 ≤ h ∧ ∀ t ∈ ts, t.height ≤ h := by
  induction ts with
  | nil => simp [highestHeight]
  | cons t ts ih => simp [highestHeight, ih, and_left_comm]

theorem Tree.highestHeight_le {ts : List Tree} :
    highestHeight ts ≤ h ↔ ∀ t ∈ ts, t.height ≤ h := by
  induction ts with
  | nil => simp [highestHeight]
  | cons t ts ih => simp [highestHeight, ih]

theorem Term.height_le {t : Term} :
    t.height ≤ h ↔ 1 ≤ h ∧ ∀ f ∈ t.top ++ t.bottom, f.height ≤ h := by
  obtain ⟨m, d, top, bottom⟩ := t
  simp only [height, max_le_iff, Factor.highestHeight_le, List.forall_mem_append]
  tauto

end

theorem Factor.level_pos (f : Factor) : 1 ≤ f.level := by
  obtain ⟨base, exponent⟩ := f
  simp only [level]
  omega

theorem Factor.height_pos (f : Factor) : 1 ≤ f.height := by
  obtain ⟨base, exponent⟩ := f
  simp only [height]
  omega

theorem Term.level_pos (t : Term) : 1 ≤ t.level := (level_le.mp le_rfl).1

theorem Term.height_pos (t : Term) : 1 ≤ t.height := (height_le.mp le_rfl).1

/-- The multiplier of a term counts for nothing. -/
theorem Term.withMultiplier_under (t : Term) (v : Value) :
    ({ t with multiplier := v } : Term).level = t.level ∧
      ({ t with multiplier := v } : Term).height = t.height := by
  cases t
  exact ⟨rfl, rfl⟩

/-- A tree is nested no deeper than another in either sense. -/
structure Tree.Under (s t : Tree) : Prop where
  level : s.level ≤ t.level
  height : s.height ≤ t.height

structure Factor.Under (f g : Factor) : Prop where
  level : f.level ≤ g.level
  height : f.height ≤ g.height

structure Term.Under (s t : Term) : Prop where
  level : s.level ≤ t.level
  height : s.height ≤ t.height

theorem Tree.Under.refl (t : Tree) : t.Under t := ⟨le_rfl, le_rfl⟩

theorem Factor.Under.refl (f : Factor) : f.Under f := ⟨le_rfl, le_rfl⟩

theorem Term.Under.refl (t : Term) : t.Under t := ⟨le_rfl, le_rfl⟩

theorem Tree.Under.trans {s t u : Tree} (h : s.Under t) (h' : t.Under u) : s.Under u :=
  ⟨h.level.trans h'.level, h.height.trans h'.height⟩

theorem Term.Under.trans {s t u : Term} (h : s.Under t) (h' : t.Under u) : s.Under u :=
  ⟨h.level.trans h'.level, h.height.trans h'.height⟩

theorem Tree.under_number (v : Value) (t : Tree) : (number v).Under t := ⟨Nat.zero_le _, Nat.zero_le _⟩

theorem Factor.base_under (base exponent : Tree) : base.Under (.power ⟨base, exponent⟩) :=
  ⟨le_max_left _ _, Nat.le_add_left _ _⟩

theorem Factor.under_of {b e b' e' : Tree} (hb : b.Under b') (he : e.level ≤ e'.level) :
    Under ⟨b, e⟩ ⟨b', e'⟩ :=
  ⟨max_le_max hb.level (Nat.add_le_add_left he 1), Nat.add_le_add_left hb.height 1⟩

/-- Each of the factors is a placeholder or nested no deeper than one of the others. -/
def Factor.AllUnder (fs gs : List Factor) : Prop :=
  ∀ f ∈ fs, f = .placeholder ∨ ∃ g ∈ gs, f.Under g

theorem Term.level_le_of_under {t : Term} {fs : List Factor} {l : Nat}
    (h : Factor.AllUnder (t.top ++ t.bottom) fs) (hl : 1 ≤ l) (hfs : ∀ f ∈ fs, f.level ≤ l) :
    t.level ≤ l := by
  refine level_le.mpr ⟨hl, fun f hf => ?_⟩
  rcases h f hf with rfl | ⟨g, hg, hfg⟩
  · exact hl
  · exact hfg.level.trans (hfs g hg)

theorem Term.height_le_of_under {t : Term} {fs : List Factor} {l : Nat}
    (h : Factor.AllUnder (t.top ++ t.bottom) fs) (hl : 1 ≤ l) (hfs : ∀ f ∈ fs, f.height ≤ l) :
    t.height ≤ l := by
  refine height_le.mpr ⟨hl, fun f hf => ?_⟩
  rcases h f hf with rfl | ⟨g, hg, hfg⟩
  · exact hl
  · exact hfg.height.trans (hfs g hg)

theorem Term.base_under {t : Term} {b e : Tree} (h : ⟨b, e⟩ ∈ t.top ++ t.bottom) :
    b.Under (.term t) := by
  have hlevel := (level_le.mp (le_refl t.level)).2 _ h
  have hheight := (height_le.mp (le_refl t.height)).2 _ h
  simp only [Factor.level, Factor.height] at hlevel hheight
  exact ⟨(le_max_left _ _).trans hlevel, by simp only [Tree.height]; omega⟩

theorem Term.under_sum {ts : List Term} {t : Term} (h : t ∈ ts) :
    (Tree.term t).Under (.sum ts) ∧ t.height < (Tree.sum ts).height := by
  have hlevel := (highestLevel_le.mp (le_refl (highestLevel ts))).2 t h
  have hheight := (highestHeight_le.mp (le_refl (highestHeight ts))).2 t h
  exact ⟨⟨hlevel, by simp only [Tree.height]; omega⟩, by simp only [Tree.height]; omega⟩

mutual

theorem Tree.reduce_under : (t : Tree) → {c : Tree} → t.reduce = .ok c → c.Under t
  | .power f, c, h => f.reduce_under h
  | .term t, c, h => t.reduce_under h
  | .sum [t], c, h => (t.reduce_under h).trans (Term.under_sum List.mem_cons_self).1
  | .number _, c, h | .constant _, c, h | .variable _, c, h | .sum [], c, h
  | .sum (_ :: _ :: _), c, h | .call _ _, c, h => by
    obtain rfl := Except.ok.inj h
    exact .refl _

theorem Factor.reduce_under : (f : Factor) → {c : Tree} → f.reduce = .ok c → c.Under (.power f)
  | ⟨base, exponent⟩, c, h => by
    obtain ⟨one, -, h⟩ := bind_eq_ok.mp h
    cases one with
    | false =>
      obtain rfl := Except.ok.inj h
      exact .refl _
    | true => exact (base.reduce_under h).trans (Factor.base_under base exponent)

theorem Term.reduce_under : (t : Term) → {c : Tree} → t.reduce = .ok c → c.Under (.term t)
  | ⟨multiplier, divisor, [⟨base, exponent⟩], bottom⟩, c, h => by
    obtain ⟨whole, -, h⟩ := bind_eq_ok.mp h
    cases whole with
    | false =>
      obtain rfl := Except.ok.inj h
      exact .refl _
    | true =>
      obtain ⟨one, -, h⟩ := bind_eq_ok.mp h
      cases one with
      | true =>
        obtain rfl := Except.ok.inj h
        exact Tree.under_number _ _
      | false =>
        simp only [Bool.false_eq_true, if_false] at h
        split at h
        · obtain ⟨first, -, h⟩ := bind_eq_ok.mp h
          cases first with
          | true =>
            exact (base.reduce_under h).trans
              (Term.base_under (List.mem_append_left _ List.mem_cons_self))
          | false =>
            obtain rfl := Except.ok.inj h
            exact .refl _
        · obtain rfl := Except.ok.inj h
          exact .refl _
  | ⟨_, _, [], _⟩, c, h | ⟨_, _, _ :: _ :: _, _⟩, c, h => by
    rw [Term.reduce] at h
    · obtain rfl := Except.ok.inj h
      exact .refl _
    · simp

end

theorem Term.opposite_under {t : Term} {c : Tree}
    (h : (do (← t.scale .negativeOne).reduce : Except Fault Tree) = .ok c) : c.Under (.term t) := by
  obtain ⟨u, hu, hc⟩ := bind_eq_ok.mp h
  obtain ⟨v, -, hu⟩ := bind_eq_ok.mp hu
  obtain rfl := Except.ok.inj hu
  obtain ⟨hlevel, hheight⟩ := t.withMultiplier_under v
  have hc := Term.reduce_under _ hc
  exact ⟨hc.level.trans hlevel.le, hc.height.trans hheight.le⟩

theorem Tree.absorb_under : (base : Tree) → {exponent : Tree} → {c v : Value} →
    {kept : Option Factor} → base.absorb exponent c = .ok (v, kept) →
    ∀ f ∈ kept.toList, f.Under ⟨base, exponent⟩ := by
  intro base exponent c v kept h
  rcases absorb_cases h with ⟨-, -, rfl⟩ | ⟨w, -, -, rfl⟩ | ⟨-, rfl, -⟩ | ⟨-, -, o, ho, rfl, -⟩
  · simp
  · simp
  · simp [Factor.Under.refl]
  · have hopposite : o.Under base := by
      cases base with
      | number w =>
        obtain ⟨w', -, rfl⟩ := ho
        exact under_number _ _
      | power f =>
        obtain ⟨b', e'⟩ := f
        obtain ⟨k, kept, hkept, ho⟩ := ho
        refine (Term.opposite_under ho).trans ?_
        have hkept := b'.absorb_under hkept
        have hside : ∀ f ∈ Term.side kept.toList ++ Term.side [],
            f = .placeholder ∨ f.Under ⟨b', e'⟩ := by
          cases kept with
          | none => simp [Term.side]
          | some g => simpa [Term.side] using .inr (hkept g (by simp))
        refine ⟨Term.level_le.mpr ⟨Factor.level_pos _, fun f hf => ?_⟩,
          Term.height_le.mpr ⟨Factor.height_pos _, fun f hf => ?_⟩⟩
        · rcases hside f hf with rfl | hf
          · exact Factor.level_pos _
          · exact hf.level
        · rcases hside f hf with rfl | hf
          · exact Factor.height_pos _
          · exact hf.height
      | term t => exact Term.opposite_under ho
      | _ => exact ho.elim
    simp only [Option.toList_some, List.mem_singleton, forall_eq]
    exact Factor.under_of hopposite (Nat.zero_le _)

namespace Term

theorem collect_under {c v : Value} {fs kept : List Factor} (h : collect c fs = .ok (v, kept)) :
    ∀ f ∈ kept, ∃ g ∈ fs, f.Under g := by
  intro g hg
  obtain ⟨⟨base, exponent⟩, hf, w, w', hstays⟩ := exists_absorb_of_mem h hg
  exact ⟨_, hf, base.absorb_under hstays g (Option.mem_toList.mpr rfl)⟩

theorem mem_side {fs : List Factor} {f : Factor} (h : f ∈ side fs) : f = .placeholder ∨ f ∈ fs := by
  cases fs with
  | nil => exact .inl (List.mem_singleton.mp h)
  | cons g fs => exact .inr h

theorem of_under {m d : Value} {top bottom : List Factor} {t : Term}
    (h : of m d top bottom = .ok t) : Factor.AllUnder (t.top ++ t.bottom) (top ++ bottom) := by
  obtain ⟨⟨v, keptTop⟩, hkept, h⟩ := bind_eq_ok.mp h
  obtain ⟨⟨w, keptBottom⟩, hkept', h⟩ := bind_eq_ok.mp h
  obtain rfl := Except.ok.inj h
  intro f hf
  rcases List.mem_append.mp hf with hf | hf
  · refine (mem_side hf).imp_right fun hf => ?_
    obtain ⟨g, hg, hfg⟩ := collect_under hkept f hf
    exact ⟨g, List.mem_append_left _ hg, hfg⟩
  · refine (mem_side hf).imp_right fun hf => ?_
    obtain ⟨g, hg, hfg⟩ := collect_under hkept' f hf
    exact ⟨g, List.mem_append_right _ hg, hfg⟩

theorem of_level_le {m d : Value} {top bottom : List Factor} {t : Term} {l : Nat}
    (h : of m d top bottom = .ok t) (hl : 1 ≤ l) (hfs : ∀ f ∈ top ++ bottom, f.level ≤ l) :
    t.level ≤ l := level_le_of_under (of_under h) hl hfs

theorem ofFactor_under {f : Factor} {t : Term} (h : ofFactor f = .ok t) :
    (Tree.term t).Under (.power f) := by
  refine ⟨of_level_le h f.level_pos ?_, height_le_of_under (of_under h) f.height_pos ?_⟩
  · rintro g hg
    obtain rfl : g = f := by simpa using hg
    exact le_rfl
  · rintro g hg
    obtain rfl : g = f := by simpa using hg
    exact le_rfl

end Term

section
variable {l : Nat}

theorem Tree.level_pos : (t : Tree) → (∀ v, t ≠ .number v) → 1 ≤ t.level
  | .number v, h => (h v rfl).elim
  | .constant _, _ | .variable _, _ => le_rfl
  | .power f, _ => f.level_pos
  | .term t, _ => t.level_pos
  | .sum ts, _ => (Term.highestLevel_le.mp (le_refl (Term.highestLevel ts))).1
  | .call _ args, _ => (highestLevel_le.mp (le_refl (highestLevel args))).1

theorem Tree.first_level (h1 : 1 ≤ l) {t : Tree} (h : t.level ≤ l) : (⟨t, .one⟩ : Factor).level ≤ l :=
  max_le h h1

theorem Tree.toFactor_level (h1 : 1 ≤ l) {t : Tree} (h : t.level ≤ l) : t.toFactor.level ≤ l := by
  cases t with
  | power f => exact h
  | _ => exact first_level h1 h

theorem Tree.toTerm_level (h1 : 1 ≤ l) {t : Tree} {u : Term} (h : t.toTerm = .ok u)
    (ht : t.level ≤ l) : u.level ≤ l := by
  have hfactor : ∀ {s : Tree}, Term.ofFactor s.toFactor = .ok u → s.level ≤ l → u.level ≤ l :=
    fun hu hs => (Term.ofFactor_under hu).level.trans (toFactor_level h1 hs)
  cases t with
  | number v =>
    obtain rfl := Except.ok.inj h
    exact h1
  | term t =>
    obtain rfl := Except.ok.inj h
    exact ht
  | sum ts =>
    obtain ⟨c, hc, h⟩ := bind_eq_ok.mp h
    have hc := (reduce_under _ hc).level.trans ht
    cases c with
    | number v =>
      obtain rfl := Except.ok.inj h
      exact h1
    | term t =>
      obtain rfl := Except.ok.inj h
      exact hc
    | _ => exact hfactor h hc
  | _ => exact hfactor h ht

theorem Term.summed_level (h1 : 1 ≤ l) {ts us : List Term} (h : summed ts = .ok us)
    (hts : ∀ t ∈ ts, t.level ≤ l) : (Tree.sum us).level ≤ l := by
  refine highestLevel_le.mpr ⟨h1, fun u hu => ?_⟩
  have hmem := (sorted_perm h).subset hu
  split at hmem
  · obtain rfl := List.mem_singleton.mp hmem
    exact h1
  · exact hts u hmem

namespace Term

theorem withCommonDenominator_under {s t u : Term} (h : s.withCommonDenominator t = .ok u) :
    Factor.AllUnder (u.top ++ u.bottom) ((s.top ++ s.bottom) ++ (t.top ++ t.bottom)) := by
  unfold withCommonDenominator at h
  split at h
  · obtain rfl := Except.ok.inj h
    exact fun f hf => .inr ⟨f, List.mem_append_left _ hf, .refl f⟩
  · obtain ⟨v, -, h⟩ := bind_eq_ok.mp h
    obtain ⟨w, -, h⟩ := bind_eq_ok.mp h
    intro f hf
    refine (of_under h f hf).imp_right fun ⟨g, hg, hfg⟩ => ⟨g, ?_, hfg⟩
    simp only [List.mem_append] at hg ⊢
    tauto

theorem withCommonDenominator_level {s t u : Term} (h : s.withCommonDenominator t = .ok u)
    (hs : s.level ≤ l) (ht : t.level ≤ l) : u.level ≤ l :=
  level_le_of_under (withCommonDenominator_under h) (level_le.mp hs).1
    (List.forall_mem_append.mpr ⟨(level_le.mp hs).2, (level_le.mp ht).2⟩)

theorem withCommonDenominator_height {s t u : Term} (h : s.withCommonDenominator t = .ok u)
    (hs : s.height ≤ l) (ht : t.height ≤ l) : u.height ≤ l :=
  height_le_of_under (withCommonDenominator_under h) (height_le.mp hs).1
    (List.forall_mem_append.mpr ⟨(height_le.mp hs).2, (height_le.mp ht).2⟩)

theorem add_level {s t : Term} {c : Tree} (h : s.add t = .ok c) (hs : s.level ≤ l)
    (ht : t.level ≤ l) : c.level ≤ l := by
  obtain ⟨left, hleft, h⟩ := bind_eq_ok.mp h
  obtain ⟨right, hright, h⟩ := bind_eq_ok.mp h
  have hleft := withCommonDenominator_level hleft hs ht
  have hright := withCommonDenominator_level hright ht hs
  obtain ⟨h1, hfactors⟩ := level_le.mp hleft
  have hfactors' := (level_le.mp hright).2
  split at h
  · obtain ⟨v, -, h⟩ := bind_eq_ok.mp h
    obtain rfl := Except.ok.inj h
    exact (left.withMultiplier_under v).1.trans_le hleft
  · obtain ⟨whole, -, h⟩ := bind_eq_ok.mp h
    cases whole with
    | true =>
      obtain ⟨us, hus, h⟩ := bind_eq_ok.mp h
      obtain rfl := Except.ok.inj h
      exact summed_level h1 hus (by simp [hleft, hright])
    | false =>
      obtain ⟨u, hu, h⟩ := bind_eq_ok.mp h
      obtain ⟨v, hv, h⟩ := bind_eq_ok.mp h
      obtain ⟨us, hus, h⟩ := bind_eq_ok.mp h
      obtain ⟨r, hr, h⟩ := bind_eq_ok.mp h
      obtain rfl := Except.ok.inj h
      have hu := of_level_le hu h1 fun f hf => hfactors f (by simp_all)
      have hv := of_level_le hv h1 fun f hf => hfactors' f (by simp_all)
      have hsum := summed_level h1 hus (by simp [hu, hv])
      refine of_level_le hr h1 fun f hf => ?_
      rcases List.mem_append.mp hf with hf | hf
      · obtain rfl := List.mem_singleton.mp hf
        exact Tree.first_level h1 hsum
      · exact hfactors f (List.mem_append_right _ hf)

theorem times_level {s u : Term} {t : Tree} (h : s.times t = .ok u) (hs : s.level ≤ l)
    (ht : t.level ≤ l) : u.level ≤ l := by
  obtain ⟨h1, hs'⟩ := level_le.mp hs
  have hfactor : of s.multiplier s.divisor (s.top ++ [t.toFactor]) s.bottom = .ok u →
      u.level ≤ l := by
    intro h
    refine of_level_le h h1 fun f hf => ?_
    simp only [List.mem_append, List.mem_singleton] at hf hs'
    rcases hf with (hf | rfl) | hf
    · exact hs' f (.inl hf)
    · exact Tree.toFactor_level h1 ht
    · exact hs' f (.inr hf)
  cases t with
  | term t =>
    obtain ⟨v, -, h⟩ := bind_eq_ok.mp h
    obtain ⟨w, -, h⟩ := bind_eq_ok.mp h
    have ht' := (level_le.mp ht).2
    refine of_level_le h h1 fun f hf => ?_
    simp only [List.mem_append] at hf hs' ht'
    rcases hf with (hf | hf) | hf | hf
    · exact hs' f (.inl hf)
    · exact ht' f (.inl hf)
    · exact hs' f (.inr hf)
    · exact ht' f (.inr hf)
  | number v =>
    obtain ⟨w, -, h⟩ := bind_eq_ok.mp h
    obtain rfl := Except.ok.inj h
    exact (s.withMultiplier_under w).1.trans_le hs
  | _ => exact hfactor h

end Term

theorem Tree.summands_level (h1 : 1 ≤ l) {t : Tree} {ts : List Term} (h : t.summands = .ok ts)
    (ht : t.level ≤ l) : ∀ u ∈ ts, u.level ≤ l := by
  have hterm : ∀ {s : Tree}, (do return [← s.toTerm] : Except Fault (List Term)) = .ok ts →
      s.level ≤ l → ∀ u ∈ ts, u.level ≤ l := by
    intro s h hs
    obtain ⟨u, hu, h⟩ := bind_eq_ok.mp h
    obtain rfl := Except.ok.inj h
    simpa using toTerm_level h1 hu hs
  match t with
  | .sum [t] =>
    obtain ⟨zero, -, h⟩ := bind_eq_ok.mp h
    cases zero with
    | true =>
      obtain rfl := Except.ok.inj h
      simp
    | false =>
      obtain rfl := Except.ok.inj h
      exact (Term.highestLevel_le.mp ht).2
  | .sum [] | .sum (_ :: _ :: _) =>
    obtain rfl := Except.ok.inj h
    exact (Term.highestLevel_le.mp ht).2
  | .number _ | .constant _ | .variable _ | .power _ | .term _ | .call _ _ => exact hterm h ht

theorem Tree.sumOf_level (h1 : 1 ≤ l) {ts : List Tree} {c : Tree} (h : sumOf ts = .ok c)
    (hts : ∀ t ∈ ts, t.level ≤ l) : c.level ≤ l := by
  obtain ⟨us, hus, h⟩ := bind_eq_ok.mp h
  obtain ⟨ss, hss, h⟩ := bind_eq_ok.mp h
  obtain rfl := Except.ok.inj h
  refine Term.summed_level h1 hss fun u hu => ?_
  obtain ⟨t, ht, htu⟩ := mem_mapM hus hu
  exact toTerm_level h1 htu (hts t ht)

/-- A sum of exponents is nested no deeper than they are. -/
theorem Tree.add_level {s t c : Tree} (h : s.add t = .ok c) (hs : s.level ≤ l) (ht : t.level ≤ l) :
    c.level ≤ l := by
  have hmixed : 1 ≤ l → (do
      if s.isSum || t.isSum then
        return sum (← Term.summed ((← s.summands) ++ (← t.summands)))
      else if s.isTerm || t.isTerm then sumOf [s, t]
      else (← s.toTerm).add (← t.toTerm) : Except Fault Tree) = .ok c → c.level ≤ l := by
    intro h1 h
    split at h
    · obtain ⟨ss, hss, h⟩ := bind_eq_ok.mp h
      obtain ⟨ts, hts, h⟩ := bind_eq_ok.mp h
      obtain ⟨us, hus, h⟩ := bind_eq_ok.mp h
      obtain rfl := Except.ok.inj h
      exact Term.summed_level h1 hus (List.forall_mem_append.mpr
        ⟨summands_level h1 hss hs, summands_level h1 hts ht⟩)
    · split at h
      · exact sumOf_level h1 h (by simp [hs, ht])
      · obtain ⟨u, hu, h⟩ := bind_eq_ok.mp h
        obtain ⟨v, hv, h⟩ := bind_eq_ok.mp h
        exact Term.add_level h (toTerm_level h1 hu hs) (toTerm_level h1 hv ht)
  unfold add at h
  split at h
  · obtain ⟨v, -, rfl⟩ := map_eq_ok.mp h
    exact Nat.zero_le _
  · exact Term.add_level h hs ht
  · next hnumbers _ =>
    refine hmixed ?_ h
    by_cases hnumber : ∃ v, s = .number v
    · obtain ⟨v, rfl⟩ := hnumber
      exact (t.level_pos fun w hw => hnumbers v w rfl hw).trans ht
    · exact (s.level_pos fun v hv => hnumber ⟨v, hv⟩).trans hs

theorem Tree.multiply_level {s t c : Tree} (h : s.multiply t = .ok c) (hs : s.level ≤ l)
    (ht : t.level ≤ l) : c.level ≤ l := by
  unfold multiply at h
  split at h
  · obtain ⟨v, -, rfl⟩ := map_eq_ok.mp h
    exact Nat.zero_le _
  · next t ts =>
    have h1 : 1 ≤ l := ((sum ts).level_pos (by simp)).trans hs
    obtain ⟨r, hr, h⟩ := bind_eq_ok.mp h
    have hr := (reduce_under _ hr).level.trans ht
    split at h
    · obtain ⟨u, hu, h⟩ := bind_eq_ok.mp h
      obtain rfl := Except.ok.inj h
      exact Term.times_level hu hr hs
    · obtain ⟨u, hu, h⟩ := bind_eq_ok.mp h
      obtain rfl := Except.ok.inj h
      refine Term.of_level_le hu h1 fun f hf => ?_
      simp only [List.append_nil, List.mem_cons, List.not_mem_nil, or_false] at hf
      rcases hf with rfl | rfl
      · exact first_level h1 hs
      · exact toFactor_level h1 hr
  · next _ hnumbers =>
    have h1 : 1 ≤ l := by
      by_cases hnumber : ∃ v, s = .number v
      · obtain ⟨v, rfl⟩ := hnumber
        exact (t.level_pos fun w hw => hnumbers v w rfl hw).trans ht
      · exact (s.level_pos fun v hv => hnumber ⟨v, hv⟩).trans hs
    obtain ⟨u, hu, h⟩ := bind_eq_ok.mp h
    obtain ⟨v, hv, h⟩ := bind_eq_ok.mp h
    obtain rfl := Except.ok.inj h
    exact Term.times_level hv (toTerm_level h1 hu hs) ht

theorem Tree.negate_level {t c : Tree} (h : t.negate = .ok c) (ht : t.level ≤ l) : c.level ≤ l :=
  multiply_level h ht (Nat.zero_le _)

end

end SymbolicAlgebra
