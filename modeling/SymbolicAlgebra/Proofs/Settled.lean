import SymbolicAlgebra.Proofs.Nesting
import SymbolicAlgebra.Proofs.Resemblance

/-!
# Settled trees

The factors of a settled tree stay what they are when they are folded once more. A negative base
whose sign cannot be pulled out is the one exception: the term `0 · x / -1` counts as negative, as does
its opposite, and only the sign of its zero changes. So the factors stay up to likeness, and settled
terms that are like each other still are when they are brought over a common denominator.
-/

namespace SymbolicAlgebra

open Outcome

namespace Value

/-- The value is one, if it is exact. -/
def IsOneIfExact (v : Value) : Prop := ∀ q, v = .exact q → q = 1

theorem isOneIfExact_of_isOne {v : Value} (h : v.isOne = true) : v.IsOneIfExact := by
  rintro q rfl
  simpa using h

theorem isOneIfExact_div {m d v : Value} (hm : m.isOne = true) (hd : d.isOne = true)
    (h : m.div d = .ok v) : v.IsOneIfExact := by
  rintro q rfl
  unfold div at h
  split at h
  · simp [undefined] at h
  · split at h
    · next p r _ =>
      obtain rfl : p = 1 := by simpa using hm
      obtain rfl : r = 1 := by simpa using hd
      simpa [eq_comm] using h
    · obtain ⟨x, -, h⟩ := bind_eq_ok.mp h
      obtain ⟨y, -, h⟩ := bind_eq_ok.mp h
      simp at h

/-- The first power of a value is always computed. -/
theorem exactPower?_one {b e : Value} (he : e.IsOneIfExact) : b.exactPower? e ≠ .ok none := by
  intro h
  obtain ⟨result, hpow, h⟩ := bind_eq_ok.mp h
  cases b with
  | float x => simp [isExact] at h
  | exact p =>
    cases e with
    | float y => simp [isExact] at h
    | exact q =>
      obtain rfl := he q rfl
      have hfirst : (exact p).pow (exact ((1 : Int) : Rat)) = .ok (exact (p ^ (1 : Int))) :=
        pow_exact (.inr Int.one_nonneg) (by simp [maxExactExponent])
      obtain rfl : exact (p ^ (1 : Int)) = result := Except.ok.inj (hfirst.symm.trans hpow)
      simp [isExact] at h

end Value

/-- A tree of value one, if it is not a power, has a plain value. -/
theorem Tree.plainValue?_of_isOne {t : Tree} (ht : ∀ f, t ≠ .power f) (hone : t.isOne = .ok true)
    {o : Option Value} (ho : t.plainValue? = .ok o) : ∃ v, o = some v ∧ v.IsOneIfExact := by
  have hterm : ∀ {t : Term}, t.isOne = .ok true → t.plainValue? = .ok o →
      ∃ v, o = some v ∧ v.IsOneIfExact := by
    rintro ⟨m, d, top, bottom⟩ hone ho
    rw [Term.isOne] at hone
    split at hone
    · next hcoefficients =>
      obtain ⟨hm, hd⟩ := Bool.and_eq_true_iff.mp hcoefficients
      obtain ⟨bottomOne, hbottom, hone⟩ := bind_eq_ok.mp hone
      cases bottomOne with
      | false => simp at hone
      | true =>
        have htop : Factor.allOne top = .ok true := hone
        rw [Term.plainValue?, htop, hbottom] at ho
        simp only [ok_bind, if_true] at ho
        obtain ⟨v, hv, ho⟩ := bind_eq_ok.mp ho
        exact ⟨v, (Except.ok.inj ho).symm, Value.isOneIfExact_div hm hd hv⟩
    · simp at hone
  cases t with
  | number v => exact ⟨v, (Except.ok.inj ho).symm, Value.isOneIfExact_of_isOne (Except.ok.inj hone)⟩
  | power f => exact (ht f rfl).elim
  | term t => exact hterm hone ho
  | sum ts =>
    cases ts with
    | nil => simp [Tree.isOne] at hone
    | cons t rest =>
      cases rest with
      | nil => exact hterm hone ho
      | cons t' rest => simp [Tree.isOne] at hone
  | _ => simp [Tree.isOne] at hone

/-- A base with a first power that has no value has no plain value itself. -/
theorem Factor.plainValue?_of_isOne {base exponent : Tree} (hpower : ∀ f, exponent ≠ .power f)
    (hone : exponent.isOne = .ok true) (hvalue : Factor.value? ⟨base, exponent⟩ = .ok none) :
    base.plainValue? = .ok none := by
  obtain ⟨b, hb, hvalue⟩ := bind_eq_ok.mp hvalue
  cases b with
  | none => exact hb
  | some b =>
    obtain ⟨e, he, hvalue⟩ := bind_eq_ok.mp hvalue
    obtain ⟨v, rfl, hv⟩ := Tree.plainValue?_of_isOne hpower hone he
    exact (Value.exactPower?_one hv hvalue).elim

theorem Factor.isSymbolic_first {base : Tree} (h : base.plainValue? = .ok none) :
    Factor.IsSymbolic ⟨base, .one⟩ :=
  ⟨by simp [Tree.one, Tree.isZero, Value.one], by simp [Factor.value?, h]⟩

/-- Folding keeps the factor, up to likeness. -/
structure Factor.IsKept (f : Factor) : Prop where
  symbolic : f.IsSymbolic
  opposite : f.exponent.isOne = .ok true → f.base.isNegative = .ok true →
    ∀ o : Tree, o.IsOpposite f.base → Factor.same ⟨o, .one⟩ f = true

theorem Factor.IsKept.absorb {f : Factor} (h : f.IsKept) {c v : Value} {kept : Option Factor}
    (hv : f.base.absorb f.exponent c = .ok (v, kept)) : ∃ g, kept = some g ∧ g.same f = true := by
  obtain ⟨base, exponent⟩ := f
  rcases Tree.absorb_cases hv with ⟨hzero, -, -⟩ | ⟨w, hw, -, -⟩ | ⟨-, rfl, -⟩ |
    ⟨hone, -, o, ho, rfl, -, hnegative⟩
  · exact absurd (h.symbolic.zero.symm.trans hzero) (by simp)
  · exact absurd (h.symbolic.value.symm.trans hw) (by simp)
  · exact ⟨_, rfl, Factor.same_refl _⟩
  · exact ⟨_, rfl, h.opposite hone hnegative o ho⟩

theorem Factor.placeholder_not_symbolic : ¬ Factor.placeholder.IsSymbolic := by
  intro h
  have hvalue : Value.one.exactPower? .one = .ok none := h.value
  exact Value.exactPower?_one (Value.isOneIfExact_of_isOne (by simp [Value.one])) hvalue

theorem Factor.IsKept.not_same_placeholder {f : Factor} (h : f.IsKept) :
    f.same .placeholder = false := by
  obtain ⟨base, exponent⟩ := f
  have hvalue := h.symbolic.value
  rw [Bool.eq_false_iff]
  intro hsame
  obtain ⟨hbase, hexponent⟩ := Bool.and_eq_true_iff.mp hsame
  have hone : ∀ {t : Tree}, t.same .one = true → ∃ v, t = .number v ∧ v.isOne = true := by
    intro t ht
    cases t with
    | number v => exact ⟨v, rfl, Value.isOne_iff.mpr (Value.same_iff.mp ht)⟩
    | _ => simp [Tree.same, Tree.one] at ht
  obtain ⟨b, rfl, -⟩ := hone hbase
  obtain ⟨e, rfl, he⟩ := hone hexponent
  exact Value.exactPower?_one (Value.isOneIfExact_of_isOne he) hvalue

/-- Folding keeps the factors of the terms in the tree, up to likeness, and unwrapping keeps the tree
and the bases and exponents in it. -/
inductive Tree.IsSettled : Tree → Prop
  | number (v : Value) : IsSettled (.number v)
  | constant (c : Constant) : IsSettled (.constant c)
  | variable (name : String) : IsSettled (.variable name)
  | term {t : Term} (reduced : t.reduce = .ok (.term t))
      (kept : ∀ f ∈ t.top ++ t.bottom, f = .placeholder ∨ f.IsKept)
      (base : ∀ f ∈ t.top ++ t.bottom, f.base.IsSettled)
      (exponent : ∀ f ∈ t.top ++ t.bottom, f.exponent.IsSettled) : IsSettled (.term t)
  | sum {ts : List Term} (reduced : (Tree.sum ts).reduce = .ok (.sum ts)) : IsSettled (.sum ts)
  | call (f : Function) (args : List Tree) : IsSettled (.call f args)

structure Factor.IsSettled (f : Factor) : Prop where
  base : f.base.IsSettled
  exponent : f.exponent.IsSettled

/-- The factors of the term are settled and folding keeps them. -/
structure Term.HasSettledSides (t : Term) : Prop where
  kept : ∀ f ∈ t.top ++ t.bottom, f = .placeholder ∨ f.IsKept
  settled : ∀ f ∈ t.top ++ t.bottom, f.IsSettled

namespace Tree

theorem isSettled_term_iff {t : Term} :
    (term t).IsSettled ↔ t.reduce = .ok (.term t) ∧ t.HasSettledSides := by
  constructor
  · rintro (_ | _ | _ | ⟨reduced, kept, base, exponent⟩)
    exact ⟨reduced, kept, fun f hf => ⟨base f hf, exponent f hf⟩⟩
  · rintro ⟨reduced, kept, settled⟩
    exact .term reduced kept (fun f hf => (settled f hf).base) fun f hf => (settled f hf).exponent

theorem IsSettled.reduce {t : Tree} (h : t.IsSettled) : t.reduce = .ok t := by
  cases h with
  | term reduced => exact reduced
  | sum reduced => exact reduced
  | _ => rfl

theorem IsSettled.ne_power {t : Tree} (h : t.IsSettled) (f : Factor) : t ≠ .power f := by
  rintro rfl
  cases h

end Tree

theorem Factor.placeholder_isSettled : Factor.placeholder.IsSettled := ⟨.number _, .number _⟩

theorem Term.HasSettledSides.of_sides {t : Term} (h : t.HasSettledSides) (v : Value) :
    ({ t with multiplier := v } : Term).HasSettledSides := ⟨h.kept, h.settled⟩

namespace Term

/-- Unwrapping a settled term with another multiplier keeps the term or, if the multiplier is one,
gives a base. -/
theorem reduce_withMultiplier {t : Term} (h : (Tree.term t).IsSettled) {v : Value} {c : Tree}
    (hc : ({ t with multiplier := v } : Term).reduce = .ok c) :
    c = .term { t with multiplier := v } ∨
      v.isOne = true ∧ ∃ e, ⟨c, e⟩ ∈ t.top ∧ e.isOne = .ok true ∧ Factor.IsKept ⟨c, e⟩ := by
  obtain ⟨hreduced, hsides⟩ := Tree.isSettled_term_iff.mp h
  obtain ⟨m, d, top, bottom⟩ := t
  match top, hc, hreduced with
  | [⟨base, exponent⟩], hc, hreduced =>
    have hmem : ⟨base, exponent⟩ ∈ [⟨base, exponent⟩] ++ bottom :=
      List.mem_append_left _ List.mem_cons_self
    obtain ⟨whole, hwhole, hc⟩ := bind_eq_ok.mp hc
    cases whole with
    | false => exact .inl (Except.ok.inj hc).symm
    | true =>
      obtain ⟨whole', hwhole', hreduced⟩ := bind_eq_ok.mp hreduced
      obtain rfl : true = whole' := Except.ok.inj (hwhole.symm.trans hwhole')
      obtain ⟨one, hone, hc⟩ := bind_eq_ok.mp hc
      obtain ⟨one', hone', hreduced⟩ := bind_eq_ok.mp hreduced
      obtain rfl : one = one' := Except.ok.inj (hone.symm.trans hone')
      cases one with
      | true => simp at hreduced
      | false =>
        simp only [Bool.false_eq_true, if_false] at hc
        split at hc
        · next hv =>
          obtain ⟨first, hfirst, hc⟩ := bind_eq_ok.mp hc
          cases first with
          | false => exact .inl (Except.ok.inj hc).symm
          | true =>
            obtain rfl : base = c := Except.ok.inj ((hsides.settled _ hmem).base.reduce.symm.trans hc)
            refine .inr ⟨hv, exponent, List.mem_cons_self, hfirst, ?_⟩
            refine (hsides.kept _ hmem).resolve_left fun hplaceholder => ?_
            rw [hplaceholder] at hone
            simp [Factor.isOne, Factor.placeholder, Tree.one, Tree.isZero, Tree.isOne, Value.one]
              at hone
        · exact .inl (Except.ok.inj hc).symm
  | [], hc, hreduced | _ :: _ :: _, hc, hreduced =>
    rw [Term.reduce] at hc
    · exact .inl (Except.ok.inj hc).symm
    · simp

theorem opposite_cases {t : Term} (h : (Tree.term t).IsSettled) {o : Tree}
    (ho : o.IsOpposite (.term t)) :
    ∃ v, t.multiplier.mul .negativeOne = .ok v ∧ o.IsSettled ∧
      (o = .term { t with multiplier := v } ∨
        v.isOne = true ∧ ∃ e, ⟨o, e⟩ ∈ t.top ∧ e.isOne = .ok true ∧ Factor.IsKept ⟨o, e⟩) := by
  obtain ⟨u, hu, ho⟩ := bind_eq_ok.mp ho
  obtain ⟨v, hv, hu⟩ := bind_eq_ok.mp hu
  obtain rfl := Except.ok.inj hu
  obtain ⟨-, hsides⟩ := Tree.isSettled_term_iff.mp h
  have hcases := reduce_withMultiplier h ho
  refine ⟨v, hv, ?_, hcases⟩
  rcases hcases with rfl | ⟨-, e, he, -⟩
  · exact Tree.isSettled_term_iff.mpr ⟨ho, hsides.of_sides v⟩
  · exact (hsides.settled _ (List.mem_append_left _ he)).base

theorem place?_of_opposites {m d v w : Value} (hv : m.mul .negativeOne = .ok v)
    (hw : v.mul .negativeOne = .ok w) (hsign : m.isNegative ≠ d.isNegative)
    (hsign' : v.isNegative ≠ d.isNegative) : w.place? = v.place? ∧ w.isOne = false := by
  have hm : m.isNegative = v.isNegative := by
    rw [Bool.eq_not_of_ne hsign, Bool.eq_not_of_ne hsign']
  have hm' : m.isNegative = false := by
    cases hnegative : m.isNegative with
    | false => rfl
    | true => rw [← hnegative, hm, Value.isNegative_opposite hv hnegative]
  have hplace := Value.place?_mul_negativeOne hw
  rw [Bool.eq_false_iff, Ne, Value.isOne_iff]
  rcases Value.place?_of_not_isNegative hv hm' (hm ▸ hm') with hnone | hzero
  · simp [hplace, hnone]
  · simp [hplace, hzero, Place.opposite]

end Term

theorem Term.plainValue?_withMultiplier {t : Term} (h : t.plainValue? = .ok none) (v : Value) :
    ({ t with multiplier := v } : Term).plainValue? = .ok none := by
  obtain ⟨m, d, top, bottom⟩ := t
  obtain ⟨topOne, htop, h⟩ := bind_eq_ok.mp h
  rw [Term.plainValue?, htop]
  cases topOne with
  | false => rfl
  | true =>
    obtain ⟨bottomOne, hbottom, h⟩ := bind_eq_ok.mp h
    cases bottomOne with
    | false =>
      rw [hbottom]
      rfl
    | true =>
      obtain ⟨w, -, h⟩ := bind_eq_ok.mp h
      simp at h

/-- When the sign of a settled base is pulled out, the base that stays is settled, and it is kept. -/
theorem Tree.IsSettled.opposite {base exponent : Tree} (hbase : base.IsSettled)
    (hexponent : exponent.IsSettled) (hsymbolic : Factor.IsSymbolic ⟨base, exponent⟩)
    (hone : exponent.isOne = .ok true) (hnegative : base.isNegative = .ok true) {o : Tree}
    (ho : o.IsOpposite base) : o.IsSettled ∧ Factor.IsKept ⟨o, .one⟩ := by
  have hplain := Factor.plainValue?_of_isOne hexponent.ne_power hone hsymbolic.value
  cases base with
  | number v => simp [plainValue?] at hplain
  | term t =>
    obtain ⟨v, hv, hsettled, hcases⟩ := Term.opposite_cases hbase ho
    refine ⟨hsettled, ?_⟩
    rcases hcases with rfl | ⟨hvone, e, he, heone, hkept⟩
    · refine ⟨Factor.isSymbolic_first (Term.plainValue?_withMultiplier hplain v), ?_⟩
      intro _ hnegative' o' ho'
      obtain ⟨w, hw, -, hcases⟩ := Term.opposite_cases hsettled ho'
      have hsign : t.multiplier.isNegative ≠ t.divisor.isNegative := by
        simpa [isNegative, Term.isNegative] using hnegative
      have hsign' : v.isNegative ≠ t.divisor.isNegative := by
        simpa [isNegative, Term.isNegative] using hnegative'
      obtain ⟨hplace, hwone⟩ := Term.place?_of_opposites hv hw hsign hsign'
      rcases hcases with rfl | ⟨hwone', -⟩
      · simp [Factor.same, Tree.same, Term.same, Value.same_iff, hplace, Factor.sameAll_refl,
          Tree.same_refl]
      · simp [hwone] at hwone'
    · have hsettled' := ((isSettled_term_iff.mp hbase).2.settled _ (List.mem_append_left _ he))
      refine ⟨Factor.isSymbolic_first (Factor.plainValue?_of_isOne hsettled'.exponent.ne_power heone
        hkept.symbolic.value), fun _ hnegative' o' ho' => ?_⟩
      have hsame := hkept.opposite heone hnegative' o' ho'
      simp only [Factor.same, Bool.and_eq_true] at hsame ⊢
      exact ⟨hsame.1, Tree.same_refl _⟩
  | power f => exact (hbase.ne_power f rfl).elim
  | _ => exact ho.elim

theorem Term.collect_kept {c v : Value} {fs kept : List Factor} (h : collect c fs = .ok (v, kept))
    (hfs : ∀ f ∈ fs, f.IsSettled) : ∀ g ∈ kept, g.IsKept ∧ g.IsSettled := by
  intro g hg
  obtain ⟨⟨base, exponent⟩, hf, w, w', hstays⟩ := exists_absorb_of_mem h hg
  obtain ⟨hbase, hexponent⟩ := hfs _ hf
  rcases Tree.absorb_cases hstays with ⟨-, -, hnone⟩ | ⟨w, -, -, hnone⟩ |
    ⟨-, hself, hsymbolic, hsign⟩ | ⟨hone, -, o, ho, hopposite, hsymbolic, hnegative⟩
  · cases hnone
  · cases hnone
  · obtain rfl := Option.some.inj hself
    refine ⟨⟨hsymbolic, fun hone hnegative => ?_⟩, hbase, hexponent⟩
    rcases hsign with hone' | ⟨-, hpositive⟩
    · cases hone'.symm.trans hone
    · cases hpositive.symm.trans hnegative
  · obtain rfl := Option.some.inj hopposite
    obtain ⟨hsettled, hkept⟩ := hbase.opposite hexponent hsymbolic hone hnegative ho
    exact ⟨hkept, hsettled, .number _⟩

theorem Term.of_settled {m d : Value} {top bottom : List Factor} {t : Term}
    (h : of m d top bottom = .ok t) (hfs : ∀ f ∈ top ++ bottom, f.IsSettled) :
    t.HasSettledSides := by
  obtain ⟨⟨v, keptTop⟩, hkept, h⟩ := bind_eq_ok.mp h
  obtain ⟨⟨w, keptBottom⟩, hkept', h⟩ := bind_eq_ok.mp h
  obtain rfl := Except.ok.inj h
  obtain ⟨htop, hbottom⟩ := List.forall_mem_append.mp hfs
  have hside : ∀ f ∈ side keptTop ++ side keptBottom,
      f = .placeholder ∨ f.IsKept ∧ f.IsSettled := by
    refine List.forall_mem_append.mpr ⟨fun f hf => ?_, fun f hf => ?_⟩
    · exact (mem_side hf).imp_right (collect_kept hkept htop f)
    · exact (mem_side hf).imp_right (collect_kept hkept' hbottom f)
  refine ⟨fun f hf => (hside f hf).imp_right And.left, fun f hf => ?_⟩
  rcases hside f hf with rfl | ⟨-, hf⟩
  · exact Factor.placeholder_isSettled
  · exact hf

theorem Term.zero_settled : Term.zero.HasSettledSides := by
  constructor
  · simp [zero, ofValue, side]
  · simpa [zero, ofValue, side] using Factor.placeholder_isSettled

/-- A term with settled sides is settled once it is unwrapped. -/
theorem Term.HasSettledSides.reduce {t : Term} (h : t.HasSettledSides) {c : Tree}
    (hc : t.reduce = .ok c) : c.IsSettled := by
  obtain ⟨m, d, top, bottom⟩ := t
  have hterm : ∀ {t : Term}, t.HasSettledSides → t.reduce = .ok (.term t) → (Tree.term t).IsSettled :=
    fun hsides hreduced => Tree.isSettled_term_iff.mpr ⟨hreduced, hsides⟩
  match top, hc, h with
  | [⟨base, exponent⟩], hc, h =>
    have hwhole := hc
    obtain ⟨whole, -, hc⟩ := bind_eq_ok.mp hc
    cases whole with
    | false =>
      obtain rfl := Except.ok.inj hc
      exact hterm h hwhole
    | true =>
      obtain ⟨one, -, hc⟩ := bind_eq_ok.mp hc
      cases one with
      | true =>
        obtain rfl := Except.ok.inj hc
        exact .number _
      | false =>
        simp only [Bool.false_eq_true, if_false] at hc
        split at hc
        · obtain ⟨first, -, hc⟩ := bind_eq_ok.mp hc
          cases first with
          | false =>
            obtain rfl := Except.ok.inj hc
            exact hterm h hwhole
          | true =>
            have hbase := (h.settled _ (List.mem_append_left _ List.mem_cons_self)).base
            obtain rfl := Except.ok.inj (hbase.reduce.symm.trans hc)
            exact hbase
        · obtain rfl := Except.ok.inj hc
          exact hterm h hwhole
  | [], hc, h | _ :: _ :: _, hc, h =>
    have hwhole := hc
    rw [Term.reduce] at hc
    · obtain rfl := Except.ok.inj hc
      exact hterm h hwhole
    · simp

namespace Factor

theorem Alike.filter {fs gs : List Factor} (h : Alike fs gs) {p : Factor → Bool}
    (hp : ∀ f g : Factor, f.same g = true → p f = p g) : Alike (fs.filter p) (gs.filter p) := by
  intro f
  have hcount : ∀ hs : List Factor, (hs.filter p).count f = if p f then hs.count f else 0 := by
    intro hs
    induction hs with
    | nil => simp
    | cons g hs ih =>
      rw [List.filter_cons, List.count_cons]
      by_cases hg : (g == f) = true
      · rw [hp g f hg]
        cases hpf : p f <;> simp [hpf, hg, ih, List.count_cons]
      · cases p g <;> simp [hg, ih, List.count_cons]
  rw [hcount, hcount, h f]

/-- The factor is not like the placeholder. -/
def isProper (f : Factor) : Bool := !f.same .placeholder

theorem isProper_congr {f g : Factor} (h : f.same g = true) : f.isProper = g.isProper := by
  rw [isProper, isProper, Factor.same_congr f g h]

end Factor

namespace Term

theorem collect_alike {c v : Value} {fs kept : List Factor} (h : collect c fs = .ok (v, kept))
    (hfs : ∀ f ∈ fs, f = .placeholder ∨ f.IsKept) : Factor.Alike kept (fs.filter Factor.isProper) := by
  induction fs generalizing c kept with
  | nil =>
    obtain ⟨-, rfl⟩ := Prod.mk.inj (Except.ok.inj h)
    exact Factor.Alike.refl []
  | cons f fs ih =>
    obtain ⟨hf, hfs⟩ := List.forall_mem_cons.mp hfs
    obtain ⟨w, stays, rest, hstays, hrest, rfl⟩ := collect_cons_eq_ok.mp h
    have halike := ih hrest hfs
    rcases hf with rfl | hf
    · have hnone : stays = none := by
        rcases Tree.absorb_cases hstays with ⟨-, -, rfl⟩ | ⟨w, -, -, rfl⟩ |
          ⟨-, -, hsymbolic, -⟩ | ⟨-, -, o, -, -, hsymbolic, -⟩
        · rfl
        · rfl
        · exact (Factor.placeholder_not_symbolic hsymbolic).elim
        · exact (Factor.placeholder_not_symbolic hsymbolic).elim
      have hproper : Factor.placeholder.isProper = false := by
        simp [Factor.isProper, Factor.same_refl]
      simpa [hnone, hproper] using halike
    · obtain ⟨g, rfl, hsame⟩ := hf.absorb hstays
      have hproper : f.isProper = true := by simp [Factor.isProper, hf.not_same_placeholder]
      rw [List.filter_cons, if_pos hproper]
      exact (Factor.alike_singleton hsame).append halike

theorem of_alike {m d : Value} {top bottom : List Factor} {t : Term}
    (h : of m d top bottom = .ok t) (htop : ∀ f ∈ top, f = .placeholder ∨ f.IsKept)
    (hbottom : ∀ f ∈ bottom, f = .placeholder ∨ f.IsKept) :
    Factor.Alike t.top (side (top.filter Factor.isProper)) ∧
      Factor.Alike t.bottom (side (bottom.filter Factor.isProper)) := by
  obtain ⟨⟨v, keptTop⟩, hkept, h⟩ := bind_eq_ok.mp h
  obtain ⟨⟨w, keptBottom⟩, hkept', h⟩ := bind_eq_ok.mp h
  obtain rfl := Except.ok.inj h
  exact ⟨(collect_alike hkept htop).side, (collect_alike hkept' hbottom).side⟩

theorem isLike_iff_alike {s t : Term} :
    s.isLike t = true ↔ Factor.Alike s.top t.top ∧ Factor.Alike s.bottom t.bottom := by
  rw [isLike, Bool.and_eq_true, Factor.isPerm_iff_alike, Factor.isPerm_iff_alike]

theorem sharesDenominator_comm (s t : Term) : s.sharesDenominator t = t.sharesDenominator s := by
  rw [Bool.eq_iff_iff, sharesDenominator, sharesDenominator, Bool.and_eq_true, Bool.and_eq_true,
    Value.same_iff, Value.same_iff, Factor.isPerm_iff_alike, Factor.isPerm_iff_alike]
  exact and_congr eq_comm ⟨.symm, .symm⟩

theorem withCommonDenominator_isLike {s t left right : Term} (hs : s.HasSettledSides)
    (ht : t.HasSettledSides) (hlike : s.isLike t = true)
    (hleft : s.withCommonDenominator t = .ok left) (hright : t.withCommonDenominator s = .ok right) :
    left.isLike right = true := by
  unfold withCommonDenominator at hleft hright
  rw [sharesDenominator_comm t s] at hright
  split at hleft
  · next hshares =>
    rw [if_pos hshares] at hright
    obtain rfl := Except.ok.inj hleft
    obtain rfl := Except.ok.inj hright
    exact hlike
  · next hshares =>
    rw [if_neg hshares] at hright
    obtain ⟨m, -, hleft⟩ := bind_eq_ok.mp hleft
    obtain ⟨d, -, hleft⟩ := bind_eq_ok.mp hleft
    obtain ⟨m', -, hright⟩ := bind_eq_ok.mp hright
    obtain ⟨d', -, hright⟩ := bind_eq_ok.mp hright
    obtain ⟨htops, hbottoms⟩ := isLike_iff_alike.mp hlike
    obtain ⟨hstop, hsbottom⟩ := List.forall_mem_append.mp hs.kept
    obtain ⟨httop, htbottom⟩ := List.forall_mem_append.mp ht.kept
    obtain ⟨hl, hl'⟩ := of_alike hleft (List.forall_mem_append.mpr ⟨hstop, htbottom⟩)
      (List.forall_mem_append.mpr ⟨hsbottom, htbottom⟩)
    obtain ⟨hr, hr'⟩ := of_alike hright (List.forall_mem_append.mpr ⟨httop, hsbottom⟩)
      (List.forall_mem_append.mpr ⟨htbottom, hsbottom⟩)
    have hproper : ∀ {fs gs : List Factor}, Factor.Alike fs gs →
        Factor.Alike (side (fs.filter Factor.isProper)) (side (gs.filter Factor.isProper)) :=
      fun h => (h.filter fun f g => Factor.isProper_congr).side
    refine isLike_iff_alike.mpr ⟨hl.trans ((hproper ?_).trans hr.symm),
      hl'.trans ((hproper ?_).trans hr'.symm)⟩
    · exact htops.append hbottoms.symm
    · exact Factor.alike_append_comm _ _

theorem add_of_isLike {s t : Term} (hs : s.HasSettledSides) (ht : t.HasSettledSides)
    (hlike : s.isLike t = true) {c : Tree} (h : s.add t = .ok c) :
    ∃ u, c = .term u ∧ u.level ≤ max s.level t.level ∧ u.height ≤ max s.height t.height := by
  obtain ⟨left, hleft, h⟩ := bind_eq_ok.mp h
  obtain ⟨right, hright, h⟩ := bind_eq_ok.mp h
  rw [if_pos (withCommonDenominator_isLike hs ht hlike hleft hright)] at h
  obtain ⟨v, -, h⟩ := bind_eq_ok.mp h
  obtain rfl := Except.ok.inj h
  obtain ⟨hlevel, hheight⟩ := left.withMultiplier_under v
  exact ⟨_, rfl,
    hlevel.trans_le (withCommonDenominator_level hleft (le_max_left _ _) (le_max_right _ _)),
    hheight.trans_le (withCommonDenominator_height hleft (le_max_left _ _) (le_max_right _ _))⟩

end Term

end SymbolicAlgebra
