import SymbolicAlgebra.Proofs.Predicate

/-!
# Plain values

What the predicates on trees find out is true of the meaning of a tree. They find out something
about every tree with a meaning whose exponents mean numbers with which powers are computed exactly:
none of them fails there, and the trees that are numbers are those with a plain value, which is what
they mean. The induction is on the tree, with all predicates at once.
-/

namespace SymbolicAlgebra

open Outcome

/-- The exponent of a power, if it means a number, means one of a magnitude with which powers are
computed exactly. -/
def Tree.HasExactExponent (I : Interpretation) : Tree → Prop
  | .power ⟨_, e⟩ => ∀ x, e.meaning? I = some x → x.num.natAbs ≤ Value.maxExactExponent
  | _ => True

/-- No predicate fails on the tree, and it has a plain value, which is the given one, exactly if it
is a number. -/
structure Tree.Answers (q : Rat) (t : Tree) : Prop where
  plain : ∃ b, t.isNumber = .ok b ∧ t.plainValue? = .ok (if b then some (.exact q) else none)
  one : ∃ b, t.isOne = .ok b
  zero : ∃ b, t.isZero = .ok b

variable {I : Interpretation}

mutual

theorem Tree.answers : (t : Tree) → {q : Rat} → (∀ s ∈ t.nodes, s.HasExactExponent I) →
    t.meaning? I = some q → t.Answers q
  | .number v, q, _, hq => by
    obtain rfl := Tree.meaning?_number_eq_some.mp hq
    exact ⟨⟨true, rfl, rfl⟩, ⟨_, rfl⟩, ⟨_, rfl⟩⟩
  | .constant _, _, _, _ | .variable _, _, _, _ | .call _ _, _, _, _ =>
    ⟨⟨false, rfl, rfl⟩, ⟨false, rfl⟩, ⟨false, rfl⟩⟩
  | .power f, _, h, hq => f.answers h hq
  | .term t, _, h, hq => t.answers h hq
  | .sum [], _, _, _ => ⟨⟨false, rfl, rfl⟩, ⟨false, rfl⟩, ⟨true, rfl⟩⟩
  | .sum [t], _, h, hq => by
    obtain ⟨-, hterms⟩ := List.forall_mem_cons.mp h
    have ht := t.answers (fun s hs => hterms s (List.mem_append_left _ hs))
      (by rwa [Tree.meaning?_sum_singleton] at hq)
    exact ⟨ht.plain, ht.one, Term.allZero_answers [t] hterms hq⟩
  | .sum (s :: t :: rest), _, h, hq =>
    ⟨⟨false, rfl, rfl⟩, ⟨false, rfl⟩,
      Term.allZero_answers (s :: t :: rest) (List.forall_mem_cons.mp h).2 hq⟩

theorem Factor.answers : (f : Factor) → {q : Rat} → (∀ s ∈ f.nodes, s.HasExactExponent I) →
    f.meaning? I = some q → (Tree.power f).Answers q
  | ⟨base, exponent⟩, q, h, hq => by
    obtain ⟨b, n, hb, he, hn, rfl⟩ := Factor.meaning?_eq_some.mp hq
    obtain ⟨hexponent, hparts⟩ := List.forall_mem_cons.mp h
    have hbound : n.natAbs ≤ Value.maxExactExponent := by simpa using hexponent n he
    obtain ⟨⟨x, hx, hxv⟩, ⟨i, hi⟩, ⟨z, hz⟩⟩ :=
      base.answers (fun s hs => hparts s (List.mem_append_left _ hs)) hb
    obtain ⟨⟨y, hy, hyv⟩, -, ⟨w, hw⟩⟩ :=
      exponent.answers (fun s hs => hparts s (List.mem_append_right _ hs)) he
    refine ⟨⟨x && y, ?_, ?_⟩, ?_, ?_⟩
    · cases x <;> simp [Tree.isNumber, Factor.isNumber, hx, hy]
    · cases x <;> cases y <;>
        simp [Tree.plainValue?, Factor.value?, hxv, hyv, Value.exactPower?_exact hn hbound]
    · cases w <;> simp [Tree.isOne, Factor.isOne, hw, hi]
    · cases z <;> simp [Tree.isZero, Factor.isZero, hyv, hz]

theorem Term.answers : (t : Term) → {q : Rat} → (∀ s ∈ t.nodes, s.HasExactExponent I) →
    t.meaning? I = some q → (Tree.term t).Answers q
  | ⟨multiplier, divisor, top, bottom⟩, q, h, hq => by
    obtain ⟨m, d, n, k, rfl, rfl, hn, hk, hd0, -, rfl⟩ := Term.meaning?_eq_some.mp hq
    obtain ⟨-, hsides⟩ := List.forall_mem_cons.mp h
    obtain ⟨⟨x, hx⟩, ⟨z, hz⟩⟩ :=
      Factor.allAnswer top (fun s hs => hsides s (List.mem_append_left _ hs)) hn
    obtain ⟨⟨y, hy⟩, -⟩ :=
      Factor.allAnswer bottom (fun s hs => hsides s (List.mem_append_right _ hs)) hk
    refine ⟨⟨x && y, ?_, ?_⟩, ?_, ?_⟩
    · cases x <;> simp [Tree.isNumber, Term.isNumber, hx, hy]
    · cases x with
      | false => simp [Tree.plainValue?, Term.plainValue?, hx]
      | true =>
        cases y with
        | false => simp [Tree.plainValue?, Term.plainValue?, hx, hy]
        | true =>
          obtain rfl := Factor.allOne_sound top hx hn
          obtain rfl := Factor.allOne_sound bottom hy hk
          simp [Tree.plainValue?, Term.plainValue?, hx, hy, Value.div_exact m hd0]
    · simp only [Tree.isOne, Term.isOne, hx, hy]
      split
      · cases y <;> simp
      · exact ⟨false, rfl⟩
    · simp only [Tree.isZero, Term.isZero, hz]
      split
      · exact ⟨true, rfl⟩
      · exact ⟨z, rfl⟩

theorem Factor.allAnswer : (fs : List Factor) → {q : Rat} →
    (∀ s ∈ Factor.nodesOfAll fs, s.HasExactExponent I) → Factor.product? I fs = some q →
      (∃ b, Factor.allOne fs = .ok b) ∧ ∃ b, Factor.anyZero fs = .ok b
  | [], _, _, _ => ⟨⟨true, rfl⟩, ⟨false, rfl⟩⟩
  | f :: rest, _, h, hq => by
    obtain ⟨a, b, ha, hb, -⟩ := Factor.product?_cons_eq_some.mp hq
    obtain ⟨-, ⟨i, (hi : f.isOne = .ok i)⟩, ⟨z, (hz : f.isZero = .ok z)⟩⟩ :=
      f.answers (fun s hs => h s (List.mem_append_left _ hs)) ha
    obtain ⟨⟨j, hj⟩, ⟨w, hw⟩⟩ :=
      Factor.allAnswer rest (fun s hs => h s (List.mem_append_right _ hs)) hb
    constructor
    · cases i <;> simp [Factor.allOne, hi, hj]
    · cases z <;> simp [Factor.anyZero, hz, hw]

theorem Term.allZero_answers : (ts : List Term) → {q : Rat} →
    (∀ s ∈ Term.nodesOfAll ts, s.HasExactExponent I) → Term.total? I ts = some q →
      ∃ b, Term.allZero ts = .ok b
  | [], _, _, _ => ⟨true, rfl⟩
  | t :: rest, _, h, hq => by
    obtain ⟨a, b, ha, hb, -⟩ := Term.total?_cons_eq_some.mp hq
    obtain ⟨-, -, ⟨z, (hz : t.isZero = .ok z)⟩⟩ :=
      t.answers (fun s hs => h s (List.mem_append_left _ hs)) ha
    obtain ⟨w, hw⟩ := Term.allZero_answers rest (fun s hs => h s (List.mem_append_right _ hs)) hb
    cases z <;> simp [Term.allZero, hz, hw]

end

namespace Tree

/-- If a tree with a meaning has a plain value, this is exact and the meaning, also the value of a
power, and if the tree is found to be one or zero, it means that. Where the exponents mean numbers
with which powers are computed exactly, all of this is found out without failure, and every number
has a plain value. -/
theorem predicates_sound (I : Interpretation) (t : Tree) (q : Rat) (hq : t.meaning? I = some q) :
    (∀ v, t.plainValue? = .ok (some v) → v = .exact q) ∧
    (∀ f v, t = .power f → f.value? = .ok (some v) → v = .exact q) ∧
    (t.isOne = .ok true → q = 1) ∧
    (t.isZero = .ok true → q = 0) ∧
    ((∀ s ∈ t.nodes, s.HasExactExponent I) → t.Answers q) := by
  refine ⟨fun v hv => t.plainValue?_sound hv hq, ?_, fun h => t.isOne_sound h hq,
    fun h => t.isZero_sound h hq, fun h => t.answers h hq⟩
  rintro f v rfl hv
  exact f.value?_sound hv hq

/-- `2 ^ (-6 x ^ 0 / 2)` where `x` is zero. -/
theorem predicates_sound_of_power :
    let t : Tree := .power ⟨.number (.exact 2),
      .term ⟨.exact (-6), .exact 2, [⟨.variable "x", .zero⟩], [Factor.placeholder]⟩⟩
    let I : Interpretation := ⟨fun _ => 0, fun _ => 0, fun _ _ => none⟩
    t.meaning? I = some (1 / 8) ∧ (∀ s ∈ t.nodes, s.HasExactExponent I) ∧
      t.isNumber = .ok true ∧ t.plainValue? = .ok (some (.exact (1 / 8))) := by
  intro t I
  have hx : (⟨.variable "x", .zero⟩ : Factor).meaning? I = some 1 :=
    Factor.meaning?_eq_some.mpr ⟨0, 0, rfl, rfl, .inr le_rfl, (zpow_zero 0).symm⟩
  have he : (Term.mk (.exact (-6)) (.exact 2) [⟨.variable "x", .zero⟩]
      [Factor.placeholder]).meaning? I = some ((-3 : Int) : Rat) :=
    Term.meaning?_eq_some.mpr ⟨-6, 2, 1, 1, rfl, rfl, (Factor.product?_singleton _).trans hx,
      Factor.product?_side [], by norm_num, one_ne_zero, by norm_num⟩
  have hmeaning : t.meaning? I = some (1 / 8) :=
    Factor.meaning?_eq_some.mpr ⟨2, -3, rfl, he, .inl (by norm_num), by norm_num⟩
  have hexponents : ∀ s ∈ t.nodes, s.HasExactExponent I := by
    have hnodes : t.nodes = [t, .number (.exact 2),
        .term ⟨.exact (-6), .exact 2, [⟨.variable "x", .zero⟩], [Factor.placeholder]⟩,
        .power ⟨.variable "x", .zero⟩, .variable "x", .zero, .power Factor.placeholder, .one,
        .one] := rfl
    rw [hnodes]
    simp only [List.forall_mem_cons]
    refine ⟨?_, trivial, trivial, ?_, trivial, trivial, ?_, trivial, trivial, by simp⟩
    · intro x hx
      obtain rfl := Option.some.inj (he.symm.trans hx)
      decide
    · intro x hx
      obtain rfl : (0 : Rat) = x := Option.some.inj hx
      decide
    · intro x hx
      obtain rfl : (1 : Rat) = x := Option.some.inj hx
      decide
  have hnumber : t.isNumber = .ok true := rfl
  obtain ⟨-, -, -, -, hanswers⟩ := predicates_sound I t (1 / 8) hmeaning
  obtain ⟨b, hb, hplain⟩ := (hanswers hexponents).plain
  obtain rfl : true = b := Except.ok.inj (hnumber.symm.trans hb)
  exact ⟨hmeaning, hexponents, hnumber, hplain⟩

end Tree

end SymbolicAlgebra
