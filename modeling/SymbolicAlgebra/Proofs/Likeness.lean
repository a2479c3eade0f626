import SymbolicAlgebra.Proofs.Meaning
import SymbolicAlgebra.Tree.Predicate

/-!
# Likeness of trees with a meaning

Numbers of different kinds can be alike, but a tree with a meaning holds exact numbers only. Between
such trees likeness is equality, so that likeness of terms and of denominators is equality up to the
order of the factors.
-/

namespace SymbolicAlgebra

variable {I : Interpretation}

mutual

theorem Tree.same_iff : (s t : Tree) → {p q : Rat} → s.meaning? I = some p →
    t.meaning? I = some q → (s.same t = true ↔ s = t)
  | .number v, t, p, q, hs, ht => by
    obtain rfl := Tree.meaning?_number_eq_some.mp hs
    cases t with
    | number w =>
      obtain rfl := Tree.meaning?_number_eq_some.mp ht
      simp [Tree.same]
    | _ => simp [Tree.same]
  | .constant c, t, p, q, hs, ht => by cases t <;> simp [Tree.same]
  | .variable x, t, p, q, hs, ht => by cases t <;> simp [Tree.same]
  | .power f, t, p, q, hs, ht => by
    cases t with
    | power g => simpa [Tree.same] using f.same_iff g hs ht
    | _ => simp [Tree.same]
  | .term s, t, p, q, hs, ht => by
    cases t with
    | term t => simpa [Tree.same] using s.same_iff t hs ht
    | _ => simp [Tree.same]
  | .sum ss, t, p, q, hs, ht => by
    cases t with
    | sum ts => simpa [Tree.same] using Term.sameAll_iff ss ts hs ht
    | _ => simp [Tree.same]
  | .call f args, t, p, q, hs, ht => by
    cases t with
    | call g args' =>
      obtain ⟨ps, hps, _⟩ := Option.bind_eq_some_iff.mp hs
      obtain ⟨qs, hqs, _⟩ := Option.bind_eq_some_iff.mp ht
      simp [Tree.same, Tree.sameAll_iff args args' hps hqs]
    | _ => simp [Tree.same]

theorem Factor.same_iff : (f g : Factor) → {p q : Rat} → f.meaning? I = some p →
    g.meaning? I = some q → (f.same g = true ↔ f = g)
  | ⟨b, e⟩, ⟨b', e'⟩, p, q, hf, hg => by
    obtain ⟨_, _, hb, he, _⟩ := Factor.meaning?_eq_some.mp hf
    obtain ⟨_, _, hb', he', _⟩ := Factor.meaning?_eq_some.mp hg
    simp [Factor.same, b.same_iff b' hb hb', e.same_iff e' he he']

theorem Term.same_iff : (s t : Term) → {p q : Rat} → s.meaning? I = some p →
    t.meaning? I = some q → (s.same t = true ↔ s = t)
  | ⟨m, d, top, bottom⟩, ⟨m', d', top', bottom'⟩, p, q, hs, ht => by
    obtain ⟨_, _, _, _, hm, hd, htop, hbottom, _⟩ := Term.meaning?_eq_some.mp hs
    obtain ⟨_, _, _, _, hm', hd', htop', hbottom', _⟩ := Term.meaning?_eq_some.mp ht
    simp only at hm hd hm' hd'
    subst hm hd hm' hd'
    simp [Term.same, Factor.sameAll_iff top top' htop htop',
      Factor.sameAll_iff bottom bottom' hbottom hbottom', and_assoc]

theorem Factor.sameAll_iff : (fs gs : List Factor) → {p q : Rat} →
    Factor.product? I fs = some p → Factor.product? I gs = some q →
    (Factor.sameAll fs gs = true ↔ fs = gs)
  | [], gs, p, q, hfs, hgs => by cases gs <;> simp [Factor.sameAll]
  | f :: fs, [], p, q, hfs, hgs => by simp [Factor.sameAll]
  | f :: fs, g :: gs, p, q, hfs, hgs => by
    obtain ⟨_, _, hf, hfs, _⟩ := Factor.product?_cons_eq_some.mp hfs
    obtain ⟨_, _, hg, hgs, _⟩ := Factor.product?_cons_eq_some.mp hgs
    simp [Factor.sameAll, f.same_iff g hf hg, Factor.sameAll_iff fs gs hfs hgs]

theorem Term.sameAll_iff : (ss ts : List Term) → {p q : Rat} →
    Term.total? I ss = some p → Term.total? I ts = some q →
    (Term.sameAll ss ts = true ↔ ss = ts)
  | [], ts, p, q, hss, hts => by cases ts <;> simp [Term.sameAll]
  | s :: ss, [], p, q, hss, hts => by simp [Term.sameAll]
  | s :: ss, t :: ts, p, q, hss, hts => by
    obtain ⟨_, _, hs, hss, _⟩ := Term.total?_cons_eq_some.mp hss
    obtain ⟨_, _, ht, hts, _⟩ := Term.total?_cons_eq_some.mp hts
    simp [Term.sameAll, s.same_iff t hs ht, Term.sameAll_iff ss ts hss hts]

theorem Tree.sameAll_iff : (ss ts : List Tree) → {ps qs : List Rat} →
    Tree.meanings? I ss = some ps → Tree.meanings? I ts = some qs →
    (Tree.sameAll ss ts = true ↔ ss = ts)
  | [], ts, ps, qs, hss, hts => by cases ts <;> simp [Tree.sameAll]
  | s :: ss, [], ps, qs, hss, hts => by simp [Tree.sameAll]
  | s :: ss, t :: ts, ps, qs, hss, hts => by
    obtain ⟨_, _, hs, hss, _⟩ := Tree.meanings?_cons_eq_some.mp hss
    obtain ⟨_, _, ht, hts, _⟩ := Tree.meanings?_cons_eq_some.mp hts
    simp [Tree.sameAll, s.same_iff t hs ht, Tree.sameAll_iff ss ts hss hts]

end

/-- Counting off two lists against each other decides whether they agree up to order, if the test
for equality can be relied on between their members. -/
theorem isPerm_iff_perm {α : Type} [BEq α] {l₁ l₂ : List α}
    (h : ∀ a ∈ l₁, ∀ b ∈ l₂, ((a == b) = true ↔ a = b) ∧ ((b == a) = true ↔ b = a)) :
    l₁.isPerm l₂ = true ↔ l₁.Perm l₂ := by
  induction l₁ generalizing l₂ with
  | nil => cases l₂ <;> simp [List.isPerm]
  | cons a l₁ ih =>
    have hcontains : l₂.contains a = true ↔ a ∈ l₂ := by
      rw [List.contains_iff_exists_mem_beq]
      constructor
      · rintro ⟨b, hb, hab⟩
        rwa [((h a List.mem_cons_self b hb).1).mp hab]
      · intro ha
        exact ⟨a, ha, ((h a List.mem_cons_self a ha).1).mpr rfl⟩
    have herase : a ∈ l₂ → l₂.Perm (a :: l₂.erase a) := by
      intro ha
      have hba := fun b hb => (h a List.mem_cons_self b hb).2
      clear hcontains h
      induction l₂ with
      | nil => simp at ha
      | cons b l₂ ih =>
        by_cases hb : b = a
        · subst hb
          rw [List.erase_cons, if_pos ((hba b List.mem_cons_self).mpr rfl)]
        · rw [List.erase_cons, if_neg (fun hc => hb ((hba b List.mem_cons_self).mp hc))]
          have hmem : a ∈ l₂ := (List.mem_cons.mp ha).resolve_left (Ne.symm hb)
          exact ((ih hmem fun c hc => hba c (List.mem_cons_of_mem _ hc)).cons b).trans
            (List.Perm.swap a b _)
    have hrest : l₁.isPerm (l₂.erase a) = true ↔ l₁.Perm (l₂.erase a) :=
      ih fun c hc b hb => h c (List.mem_cons_of_mem _ hc) b (List.mem_of_mem_erase hb)
    rw [List.isPerm, Bool.and_eq_true, hcontains, hrest]
    constructor
    · rintro ⟨ha, hperm⟩
      exact (hperm.cons a).trans (herase ha).symm
    · intro hperm
      have ha : a ∈ l₂ := hperm.subset List.mem_cons_self
      exact ⟨ha, List.perm_cons a |>.mp (hperm.trans (herase ha))⟩

theorem Factor.exists_meaning_of_mem {fs : List Factor} {p : Rat}
    (h : Factor.product? I fs = some p) {f : Factor} (hf : f ∈ fs) :
    ∃ q, f.meaning? I = some q := by
  induction fs generalizing p with
  | nil => simp at hf
  | cons g fs ih =>
    obtain ⟨a, b, ha, hb, rfl⟩ := Factor.product?_cons_eq_some.mp h
    rcases List.mem_cons.mp hf with rfl | hf
    · exact ⟨a, ha⟩
    · exact ih hb hf

theorem Term.exists_meaning_of_mem {ts : List Term} {q : Rat} (h : total? I ts = some q) {t : Term}
    (ht : t ∈ ts) : ∃ x, t.meaning? I = some x := by
  induction ts generalizing q with
  | nil => simp at ht
  | cons s ts ih =>
    obtain ⟨a, b, ha, hb, -⟩ := total?_cons_eq_some.mp h
    rcases List.mem_cons.mp ht with rfl | ht
    · exact ⟨a, ha⟩
    · exact ih hb ht

theorem Factor.isPerm_iff {fs gs : List Factor} {p q : Rat}
    (hfs : Factor.product? I fs = some p) (hgs : Factor.product? I gs = some q) :
    fs.isPerm gs = true ↔ fs.Perm gs := by
  apply isPerm_iff_perm
  intro f hf g hg
  obtain ⟨_, hf⟩ := Factor.exists_meaning_of_mem hfs hf
  obtain ⟨_, hg⟩ := Factor.exists_meaning_of_mem hgs hg
  exact ⟨f.same_iff g hf hg, g.same_iff f hg hf⟩

theorem Term.isLike_iff {s t : Term} {p q : Rat} (hs : s.meaning? I = some p)
    (ht : t.meaning? I = some q) :
    s.isLike t = true ↔ s.top.Perm t.top ∧ s.bottom.Perm t.bottom := by
  obtain ⟨_, _, _, _, _, _, htop, hbottom, _⟩ := Term.meaning?_eq_some.mp hs
  obtain ⟨_, _, _, _, _, _, htop', hbottom', _⟩ := Term.meaning?_eq_some.mp ht
  simp [isLike, Factor.isPerm_iff htop htop', Factor.isPerm_iff hbottom hbottom']

theorem Term.sharesDenominator_iff {s t : Term} {p q : Rat} (hs : s.meaning? I = some p)
    (ht : t.meaning? I = some q) :
    s.sharesDenominator t = true ↔ s.divisor = t.divisor ∧ s.bottom.Perm t.bottom := by
  obtain ⟨_, _, _, _, _, hd, _, hbottom, _⟩ := Term.meaning?_eq_some.mp hs
  obtain ⟨_, _, _, _, _, hd', _, hbottom', _⟩ := Term.meaning?_eq_some.mp ht
  simp [sharesDenominator, hd, hd', Factor.isPerm_iff hbottom hbottom']

end SymbolicAlgebra
