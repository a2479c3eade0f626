import SymbolicAlgebra.Proofs.Double
import SymbolicAlgebra.Proofs.Outcome
import SymbolicAlgebra.Tree.Construction

/-!
# The order of the terms of a sum

The terms of a sum are inserted one by one in descending order of their ranks. A rank is never
undefined, and of two doubles that are not undefined one is at most the other, so the outcome is in
order. Terms in order keep their places: sorting a second time changes nothing.
-/

namespace SymbolicAlgebra

open Outcome

namespace Double

open Float.Model Float.Model.UnpackedFloat

theorem then_swap (m n : Nat) (e f : Int) :
    (compare f e).then (compare n m) = ((compare e f).then (compare m n)).swap := by
  rw [Ordering.swap_then, ← Std.OrientedCmp.eq_swap, ← Std.OrientedCmp.eq_swap]

theorem compare_ok {u v : UnpackedFloat} (hu : u.isNaN = false) (hv : v.isNaN = false) :
    ∃ o, u.compare v = some o ∧ v.compare u = some o.swap := by
  cases u with
  | notANumber => cases hu
  | infinity s =>
    cases s <;> cases v with
    | notANumber => cases hv
    | infinity s' | zero s' | finite s' => cases s' <;> exact ⟨_, rfl, rfl⟩
  | zero s =>
    cases s <;> cases v with
    | notANumber => cases hv
    | infinity s' | zero s' | finite s' => cases s' <;> exact ⟨_, rfl, rfl⟩
  | finite s m e hm =>
    cases v with
    | notANumber => cases hv
    | infinity s' | zero s' => cases s <;> cases s' <;> exact ⟨_, rfl, rfl⟩
    | finite s' n f hn =>
      have hswap := then_swap m n e f
      cases s <;> cases s' <;> first
        | exact ⟨_, rfl, rfl⟩
        | exact ⟨_, rfl, congrArg some hswap⟩
        | exact ⟨_, rfl, congrArg (fun o : Ordering => some o.swap) hswap⟩

theorem le_total {x y : Float} (hx : x.isNaN = false) (hy : y.isNaN = false) : x ≤ y ∨ y ≤ x := by
  have hle : ∀ x y : Float, x ≤ y ↔ UnpackedFloat.le x.toModel.unpack y.toModel.unpack = true :=
    fun x y => decide_eq_true_iff
  obtain ⟨o, hxy, hyx⟩ := compare_ok hx hy
  rw [hle, hle, UnpackedFloat.le, UnpackedFloat.le, hxy, hyx]
  cases o <;> simp

theorem isNaN_ofBits {w : UInt64} (h : scale w.toBitVec ≠ 2047) : (Float.ofBits w).isNaN = false := by
  have hvalid : Format.binary64.Valid w.toBitVec := by
    refine ⟨fun hexponent => absurd ?_ h⟩
    rw [← toNat_unpackExponent]
    exact congrArg BitVec.toNat hexponent
  have hword : word (Float.ofBits w) = w.toBitVec := pack_unpack hvalid
  rw [Bool.eq_false_iff, Ne, isNaN_iff, hword]
  exact fun hnan => h hnan.1

end Double

theorem Binary64.nearestBits?_lt {n d bits : Nat} (h : nearestBits? n d = some bits) :
    bits < 2047 * 2 ^ 52 := by
  unfold nearestBits? at h
  split at h
  · obtain rfl := Option.some.inj h
    decide
  · obtain ⟨hlt, hbits⟩ := Option.ite_none_right_eq_some.mp h
    rw [← Option.some.inj hbits]
    exact hlt

theorem Binary64.isNaN_nearest {q : Rat} {x : Float} (h : nearest? q = some x) :
    x.isNaN = false := by
  obtain ⟨bits, hbits, rfl⟩ := Option.map_eq_some_iff.mp h
  have hlt := nearestBits?_lt hbits
  apply Double.isNaN_ofBits
  rw [Double.scale]
  split
  · rw [UInt64.toNat_toBitVec, UInt64.toNat_ofNat']
    simp only [Nat.pow_eq]
    omega
  · rw [UInt64.toNat_toBitVec, UInt64.toNat_ofNat']
    omega

theorem Value.isNaN_toFloat {v : Value} {x : Float} (h : v.toFloat = .ok x)
    (hv : v.isUndefined = false) : x.isNaN = false := by
  cases v with
  | exact q =>
    rw [toFloat] at h
    split at h
    · next y hy =>
      obtain rfl := Except.ok.inj h
      exact Binary64.isNaN_nearest hy
    · cases h
  | float y =>
    obtain rfl := Except.ok.inj h
    exact hv

namespace Term

theorem isNaN_rank {t : Term} {x : Float} (h : t.rank = .ok x) : x.isNaN = false := by
  have hleast : rank.least.isNaN = false := by decide +kernel
  obtain ⟨power?, -, h⟩ := bind_eq_ok.mp h
  cases power? with
  | none =>
    obtain rfl := Except.ok.inj h
    exact hleast
  | some v =>
    simp only at h
    split at h
    · obtain rfl := Except.ok.inj h
      exact hleast
    · next hv => exact v.isNaN_toFloat h (by simpa using hv)

/-- Ranked terms in descending order. -/
def InOrder (ranked : List (Float × Term)) : Prop := ranked.IsChain fun a b => b.1 ≤ a.1

theorem inOrder_cons_cons {a b : Float × Term} {rest : List (Float × Term)} :
    InOrder (a :: b :: rest) ↔ b.1 ≤ a.1 ∧ InOrder (b :: rest) := List.isChain_cons_cons

theorem InOrder.insertRanked {a : Float × Term} {ranked : List (Float × Term)}
    (h : InOrder ranked) (htotal : ∀ b ∈ ranked, b.1 ≤ a.1 ∨ a.1 ≤ b.1) :
    InOrder (insertRanked a ranked) := by
  induction ranked with
  | nil => exact List.IsChain.singleton a
  | cons b rest ih =>
    obtain ⟨hb, hrest⟩ := List.forall_mem_cons.mp htotal
    unfold Term.insertRanked
    split
    · next hle => exact inOrder_cons_cons.mpr ⟨hle, h⟩
    · next hle =>
      have hab : a.1 ≤ b.1 := hb.resolve_left hle
      -- what follows `b` now is either `a` or what followed it before
      cases rest with
      | nil => exact inOrder_cons_cons.mpr ⟨hab, List.IsChain.singleton a⟩
      | cons c rest =>
        obtain ⟨hcb, h⟩ := inOrder_cons_cons.mp h
        have hinserted := ih h hrest
        by_cases hca : c.1 ≤ a.1
        · rw [Term.insertRanked, if_pos hca] at hinserted ⊢
          exact inOrder_cons_cons.mpr ⟨hab, hinserted⟩
        · rw [Term.insertRanked, if_neg hca] at hinserted ⊢
          exact inOrder_cons_cons.mpr ⟨hcb, hinserted⟩

theorem InOrder.foldr_insertRanked {ranked : List (Float × Term)} (h : InOrder ranked) :
    ranked.foldr Term.insertRanked [] = ranked := by
  induction ranked with
  | nil => rfl
  | cons a rest ih =>
    cases rest with
    | nil => rfl
    | cons b rest =>
      obtain ⟨hba, h⟩ := inOrder_cons_cons.mp h
      rw [List.foldr_cons, ih h, Term.insertRanked, if_pos hba]

theorem inOrder_foldr_insertRanked {ranked : List (Float × Term)}
    (h : ∀ a ∈ ranked, a.1.isNaN = false) : InOrder (ranked.foldr Term.insertRanked []) := by
  induction ranked with
  | nil => exact List.IsChain.nil
  | cons a rest ih =>
    obtain ⟨ha, hrest⟩ := List.forall_mem_cons.mp h
    refine (ih hrest).insertRanked fun b hb => ?_
    exact Double.le_total (hrest b ((perm_foldr_insertRanked rest).mem_iff.mp hb)) ha

/-- Sorting a second time changes nothing. -/
theorem sorted_sorted {ts ss : List Term} (h : sorted ts = .ok ss) : sorted ss = .ok ss := by
  obtain ⟨ranked, hranked, hss⟩ := bind_eq_ok.mp h
  obtain rfl := Except.ok.inj hss
  have hrank : ∀ a ∈ ranked, a.2.rank = .ok a.1 := by
    intro a ha
    obtain ⟨t, -, ht⟩ := mem_mapM hranked ha
    obtain ⟨x, hx, ht⟩ := bind_eq_ok.mp ht
    obtain rfl := Except.ok.inj ht
    exact hx
  have hrank' : ∀ a ∈ ranked.foldr insertRanked [], a.2.rank = .ok a.1 := fun a ha =>
    hrank a ((perm_foldr_insertRanked ranked).mem_iff.mp ha)
  have hinOrder : InOrder (ranked.foldr insertRanked []) :=
    inOrder_foldr_insertRanked fun a ha => isNaN_rank (hrank a ha)
  generalize ranked.foldr insertRanked [] = inOrder at hrank' hinOrder
  have hmap : (inOrder.map (·.2)).mapM (fun t => do return (← t.rank, t)) = .ok inOrder := by
    clear hinOrder
    induction inOrder with
    | nil => rfl
    | cons a rest ih =>
      obtain ⟨ha, hrest⟩ := List.forall_mem_cons.mp hrank'
      rw [List.map_cons, List.mapM_cons, ih hrest, ha]
      rfl
  rw [sorted, hmap]
  exact congrArg (Except.ok <| List.map (·.2) ·) hinOrder.foldr_insertRanked

end Term

end SymbolicAlgebra
