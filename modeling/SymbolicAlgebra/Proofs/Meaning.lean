import Mathlib.Algebra.Order.Field.Rat
import Mathlib.Tactic.FieldSimp
import Mathlib.Tactic.Ring
import SymbolicAlgebra.Tree.Basic

/-!
# The meaning of trees

An interpretation gives every variable and every constant a rational number and every function a
partial function on rational numbers. Under it a tree means a rational number, unless a part of it
means none, a denominator is zero, zero is raised to a negative power or an exponent is not whole.
A double means no rational number. The lemmas say what the parts of a tree with a meaning mean.
-/

namespace SymbolicAlgebra

structure Interpretation where
  ofVariable : String → Rat
  ofConstant : Constant → Rat
  ofFunction : Function → List Rat → Option Rat

def Value.rational? : Value → Option Rat
  | exact q => some q
  | float _ => none

/-- A whole power; zero has no negative ones. -/
def raise? (b e : Rat) : Option Rat :=
  if e.den = 1 ∧ (b ≠ 0 ∨ 0 ≤ e.num) then some (b ^ e.num) else none

def quotient? (a b : Rat) : Option Rat := if b = 0 then none else some (a / b)

variable (I : Interpretation)

mutual

def Tree.meaning? : Tree → Option Rat
  | .number v => v.rational?
  | .constant c => some (I.ofConstant c)
  | .variable name => some (I.ofVariable name)
  | .power f => f.meaning?
  | .term t => t.meaning?
  | .sum terms => Term.total? terms
  | .call f args => do I.ofFunction f (← Tree.meanings? args)

def Factor.meaning? : Factor → Option Rat
  | ⟨base, exponent⟩ => do raise? (← base.meaning?) (← exponent.meaning?)

def Term.meaning? : Term → Option Rat
  | ⟨multiplier, divisor, top, bottom⟩ => do
    let m ← multiplier.rational?
    let d ← divisor.rational?
    let n ← Factor.product? top
    let k ← Factor.product? bottom
    quotient? (m * n) (d * k)

def Factor.product? : List Factor → Option Rat
  | [] => some 1
  | f :: rest => do return (← f.meaning?) * (← Factor.product? rest)

def Term.total? : List Term → Option Rat
  | [] => some 0
  | t :: rest => do return (← t.meaning?) + (← Term.total? rest)

def Tree.meanings? : List Tree → Option (List Rat)
  | [] => some []
  | t :: rest => do return (← t.meaning?) :: (← Tree.meanings? rest)

end

variable {I}

@[simp] theorem Value.rational?_exact (q : Rat) : (exact q).rational? = some q := rfl

theorem Value.rational?_eq_some {v : Value} {q : Rat} : v.rational? = some q ↔ v = exact q := by
  cases v <;> simp [rational?]

theorem raise?_eq_some {b e q : Rat} :
    raise? b e = some q ↔ ∃ n : Int, e = n ∧ (b ≠ 0 ∨ 0 ≤ n) ∧ q = b ^ n := by
  unfold raise?
  constructor
  · intro h
    split at h
    · next hc =>
      exact ⟨e.num, (Rat.coe_int_num_of_den_eq_one hc.1).symm, hc.2, (Option.some.inj h).symm⟩
    · cases h
  · rintro ⟨n, rfl, hb, rfl⟩
    simp [hb]

@[simp] theorem raise?_one (b : Rat) : raise? b 1 = some b := by
  rw [raise?_eq_some]
  exact ⟨1, by simp, by simp, by simp⟩

theorem quotient?_eq_some {a b q : Rat} : quotient? a b = some q ↔ b ≠ 0 ∧ q = a / b := by
  unfold quotient?
  split
  · next h => simp [h]
  · next h => simp [h, eq_comm]

theorem Factor.meaning?_eq_some {f : Factor} {q : Rat} :
    f.meaning? I = some q ↔ ∃ (b : Rat) (n : Int), f.base.meaning? I = some b ∧
      f.exponent.meaning? I = some (n : Rat) ∧ (b ≠ 0 ∨ 0 ≤ n) ∧ q = b ^ n := by
  obtain ⟨base, exponent⟩ := f
  simp only [Factor.meaning?, Option.bind_eq_bind, Option.bind_eq_some_iff, raise?_eq_some]
  constructor
  · rintro ⟨b, hb, e, he, n, rfl, hn, rfl⟩
    exact ⟨b, n, hb, he, hn, rfl⟩
  · rintro ⟨b, n, hb, he, hn, rfl⟩
    exact ⟨b, hb, n, he, n, rfl, hn, rfl⟩

theorem Term.meaning?_eq_some {t : Term} {q : Rat} :
    t.meaning? I = some q ↔ ∃ m d n k : Rat, t.multiplier = .exact m ∧ t.divisor = .exact d ∧
      Factor.product? I t.top = some n ∧ Factor.product? I t.bottom = some k ∧
      d ≠ 0 ∧ k ≠ 0 ∧ q = m * n / (d * k) := by
  obtain ⟨multiplier, divisor, top, bottom⟩ := t
  simp only [Term.meaning?, Option.bind_eq_bind, Option.bind_eq_some_iff, quotient?_eq_some,
    Value.rational?_eq_some, mul_ne_zero_iff]
  constructor
  · rintro ⟨m, hm, d, hd, n, hn, k, hk, ⟨hd0, hk0⟩, rfl⟩
    exact ⟨m, d, n, k, hm, hd, hn, hk, hd0, hk0, rfl⟩
  · rintro ⟨m, d, n, k, hm, hd, hn, hk, hd0, hk0, rfl⟩
    exact ⟨m, hm, d, hd, n, hn, k, hk, ⟨hd0, hk0⟩, rfl⟩

@[simp] theorem Factor.product?_nil : Factor.product? I [] = some 1 := rfl

theorem Factor.product?_cons_eq_some {f : Factor} {rest : List Factor} {q : Rat} :
    Factor.product? I (f :: rest) = some q ↔
      ∃ a b : Rat, f.meaning? I = some a ∧ Factor.product? I rest = some b ∧ q = a * b := by
  simp [Factor.product?, Option.bind_eq_some_iff, @eq_comm _ q]

theorem Factor.product?_append_eq_some {fs gs : List Factor} {q : Rat} :
    Factor.product? I (fs ++ gs) = some q ↔
      ∃ a b : Rat, Factor.product? I fs = some a ∧ Factor.product? I gs = some b ∧ q = a * b := by
  induction fs generalizing q with
  | nil => simp [eq_comm]
  | cons f fs ih =>
    simp only [List.cons_append, product?_cons_eq_some, ih]
    constructor
    · rintro ⟨a, _, hf, ⟨b, c, hfs, hgs, rfl⟩, rfl⟩
      exact ⟨a * b, c, ⟨a, b, hf, hfs, rfl⟩, hgs, by ring⟩
    · rintro ⟨_, c, ⟨a, b, hf, hfs, rfl⟩, hgs, rfl⟩
      exact ⟨a, b * c, hf, ⟨b, c, hfs, hgs, rfl⟩, by ring⟩

theorem Factor.product?_perm {fs gs : List Factor} (h : fs.Perm gs) :
    Factor.product? I fs = Factor.product? I gs := by
  induction h with
  | nil => rfl
  | cons f _ ih => simp only [product?, ih]
  | swap f g fs =>
    ext q
    simp only [product?_cons_eq_some]
    constructor
    · rintro ⟨a, _, ha, ⟨b, c, hb, hc, rfl⟩, rfl⟩
      exact ⟨b, a * c, hb, ⟨a, c, ha, hc, rfl⟩, by ring⟩
    · rintro ⟨b, _, hb, ⟨a, c, ha, hc, rfl⟩, rfl⟩
      exact ⟨a, b * c, ha, ⟨b, c, hb, hc, rfl⟩, by ring⟩
  | trans _ _ ih ih' => rw [ih, ih']

theorem Factor.product?_singleton (f : Factor) : Factor.product? I [f] = f.meaning? I := by
  cases h : f.meaning? I <;> simp [product?, h]

@[simp] theorem Factor.meaning?_placeholder : Factor.placeholder.meaning? I = some 1 :=
  Factor.meaning?_eq_some.mpr ⟨1, 1, rfl, rfl, .inl one_ne_zero, (one_zpow 1).symm⟩

theorem Factor.product?_side (fs : List Factor) :
    Factor.product? I (Term.side fs) = Factor.product? I fs := by
  cases fs with
  | nil => simp [Term.side, product?_singleton]
  | cons f fs => rfl

theorem Term.meaning?_ofValue (q : Rat) : (Term.ofValue (.exact q)).meaning? I = some q := by
  have hside : Factor.product? I (side []) = some 1 := Factor.product?_side []
  exact meaning?_eq_some.mpr ⟨q, 1, 1, 1, rfl, rfl, hside, hside, one_ne_zero, one_ne_zero, by simp⟩

@[simp] theorem Term.total?_nil : Term.total? I [] = some 0 := rfl

theorem Term.total?_cons_eq_some {t : Term} {rest : List Term} {q : Rat} :
    Term.total? I (t :: rest) = some q ↔
      ∃ a b : Rat, t.meaning? I = some a ∧ Term.total? I rest = some b ∧ q = a + b := by
  simp [Term.total?, Option.bind_eq_some_iff, @eq_comm _ q]

theorem Term.total?_append_eq_some {ss ts : List Term} {q : Rat} :
    Term.total? I (ss ++ ts) = some q ↔
      ∃ a b : Rat, Term.total? I ss = some a ∧ Term.total? I ts = some b ∧ q = a + b := by
  induction ss generalizing q with
  | nil => simp [eq_comm]
  | cons s ss ih =>
    simp only [List.cons_append, total?_cons_eq_some, ih]
    constructor
    · rintro ⟨a, _, hs, ⟨b, c, hss, hts, rfl⟩, rfl⟩
      exact ⟨a + b, c, ⟨a, b, hs, hss, rfl⟩, hts, by ring⟩
    · rintro ⟨_, c, ⟨a, b, hs, hss, rfl⟩, hts, rfl⟩
      exact ⟨a, b + c, hs, ⟨b, c, hss, hts, rfl⟩, by ring⟩

theorem Term.total?_perm {ss ts : List Term} (h : ss.Perm ts) :
    Term.total? I ss = Term.total? I ts := by
  induction h with
  | nil => rfl
  | cons t _ ih => simp only [total?, ih]
  | swap s t ts =>
    ext q
    simp only [total?_cons_eq_some]
    constructor
    · rintro ⟨a, _, ha, ⟨b, c, hb, hc, rfl⟩, rfl⟩
      exact ⟨b, a + c, hb, ⟨a, c, ha, hc, rfl⟩, by ring⟩
    · rintro ⟨b, _, hb, ⟨a, c, ha, hc, rfl⟩, rfl⟩
      exact ⟨a, b + c, ha, ⟨b, c, hb, hc, rfl⟩, by ring⟩
  | trans _ _ ih ih' => rw [ih, ih']

@[simp] theorem Tree.meanings?_nil : Tree.meanings? I [] = some [] := rfl

theorem Tree.meanings?_cons_eq_some {t : Tree} {rest : List Tree} {qs : List Rat} :
    Tree.meanings? I (t :: rest) = some qs ↔
      ∃ q qs', t.meaning? I = some q ∧ Tree.meanings? I rest = some qs' ∧ qs = q :: qs' := by
  simp [Tree.meanings?, Option.bind_eq_some_iff, @eq_comm _ qs]

theorem Tree.exists_meaning_of_mem {ts : List Tree} {qs : List Rat}
    (h : Tree.meanings? I ts = some qs) {t : Tree} (ht : t ∈ ts) : ∃ q, t.meaning? I = some q := by
  induction ts generalizing qs with
  | nil => simp at ht
  | cons s ts ih =>
    obtain ⟨q, qs', hq, hqs, -⟩ := Tree.meanings?_cons_eq_some.mp h
    rcases List.mem_cons.mp ht with rfl | ht
    · exact ⟨q, hq⟩
    · exact ih hqs ht

@[simp] theorem Tree.meaning?_number (q : Rat) :
    (Tree.number (.exact q)).meaning? I = some q := rfl

theorem Tree.meaning?_number_eq_some {v : Value} {q : Rat} :
    (Tree.number v).meaning? I = some q ↔ v = .exact q := Value.rational?_eq_some

@[simp] theorem Tree.meaning?_power (f : Factor) :
    (Tree.power f).meaning? I = f.meaning? I := rfl

@[simp] theorem Tree.meaning?_term (t : Term) : (Tree.term t).meaning? I = t.meaning? I := rfl

@[simp] theorem Tree.meaning?_sum (terms : List Term) :
    (Tree.sum terms).meaning? I = Term.total? I terms := rfl

theorem Tree.meaning?_sum_singleton (t : Term) :
    (Tree.sum [t]).meaning? I = t.meaning? I := by
  cases h : t.meaning? I <;> simp [Term.total?, h]

end SymbolicAlgebra
