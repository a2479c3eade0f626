import SymbolicAlgebra.Proofs.Ordering
import SymbolicAlgebra.Proofs.Simplification

/-!
# Final forms

A tree is in final form if nothing is left to do in it: the coefficients of its terms are in lowest
terms, no base stands in a term twice, and the terms of its sums are in order, differ in their
factors and can neither vanish nor turn out to be sums. Simplification leaves a final form as it is,
since each factor goes through the queue of a term in one step and no two of them meet.
-/

namespace SymbolicAlgebra

open Outcome

variable {I : Interpretation}

namespace Factor

/-- Adds a whole power to gathered ones. -/
def mergeWhole (fs : List Factor) (f : Factor) : List Factor :=
  match exponentOf? fs f.base with
  | some e => setExponent f.base (.whole (e.wholePart + f.exponent.wholePart)) fs
  | none => fs ++ [f]

theorem AllWhole.mergeWhole {fs : List Factor} {f : Factor} (h : AllWhole fs)
    (hf : ∃ n : Int, f.exponent = .whole n) : AllWhole (mergeWhole fs f) := by
  unfold Factor.mergeWhole
  split
  · intro g hg
    rcases mem_setExponent hg with hg | rfl | ⟨_, -, rfl⟩
    · exact h g hg
    all_goals exact ⟨_, rfl⟩
  · intro g hg
    rcases List.mem_append.mp hg with hg | hg
    · exact h g hg
    · rw [List.mem_singleton.mp hg]
      exact hf

theorem Normal.stays {f : Factor} (h : f.Normal) : f.stays = true := by
  obtain ⟨hatom, -, n, hn, he⟩ := normal_iff.mp h
  simp [Factor.stays, hatom, he, hn]

theorem stays_placeholder : placeholder.stays = false := decide_eq_false fun h => h.1.elim

/-- All bases have a meaning. -/
def AllMean (I : Interpretation) (fs : List Factor) : Prop :=
  ∀ f ∈ fs, ∃ x, f.base.meaning? I = some x

theorem AllMean.append {fs gs : List Factor} (h : AllMean I fs) (h' : AllMean I gs) :
    AllMean I (fs ++ gs) := List.forall_mem_append.mpr ⟨h, h'⟩

theorem exponentOf?_eq_none {fs : List Factor} {b : Tree} {x : Rat} (hb : b.meaning? I = some x)
    (hfs : AllMean I fs) (hmem : b ∉ fs.map (·.base)) : exponentOf? fs b = none := by
  rcases exponentOf?_cases hb hfs with ⟨hnone, -⟩ | ⟨e, -, hperm, -⟩
  · exact hnone
  · exact absurd ((hperm.map _).mem_iff.mpr List.mem_cons_self) hmem

/-- The exponent of a factor is found by its base, if no other factor has that base. -/
theorem exponentOf?_of_mem {fs : List Factor} {f : Factor} (hf : f ∈ fs) (hfs : AllMean I fs)
    (hnodup : (fs.map (·.base)).Nodup) :
    exponentOf? fs f.base = some f.exponent ∧ fs.Perm (f :: eraseBase f.base fs) ∧
      ∀ e, (setExponent f.base e fs).Perm (⟨f.base, e⟩ :: eraseBase f.base fs) := by
  obtain ⟨x, hx⟩ := hfs f hf
  obtain ⟨b, k⟩ := f
  rcases exponentOf?_cases hx hfs with ⟨-, hmem⟩ | ⟨e, he, hperm, hset⟩
  · exact absurd (List.mem_map_of_mem hf) hmem
  · obtain ⟨hbase, -⟩ := List.nodup_cons.mp ((hperm.map _).nodup_iff.mp hnodup)
    rcases List.mem_cons.mp (hperm.mem_iff.mp hf) with h | hmem
    · obtain rfl : k = e := congrArg Factor.exponent h
      exact ⟨he, hperm, hset⟩
    · exact absurd (List.mem_map_of_mem hmem) hbase

/-- Powers of other bases are put at the end. -/
theorem foldl_mergeWhole_eq_append {fs gs : List Factor} (hfs : AllMean I fs) (hgs : AllMean I gs)
    (hnodup : ((fs ++ gs).map (·.base)).Nodup) : gs.foldl mergeWhole fs = fs ++ gs := by
  induction gs generalizing fs with
  | nil => simp
  | cons g gs ih =>
    obtain ⟨⟨x, hx⟩, hrest⟩ := List.forall_mem_cons.mp hgs
    have happend : fs ++ g :: gs = fs ++ [g] ++ gs := by simp
    rw [happend] at hnodup ⊢
    have hmem : g.base ∉ fs.map (·.base) := by
      rw [List.map_append, List.map_append] at hnodup
      obtain ⟨-, -, hne⟩ := List.nodup_append.mp (List.nodup_append.mp hnodup).1
      exact fun hmem => hne _ hmem _ (List.mem_singleton_self _) rfl
    have hmerge : mergeWhole fs g = fs ++ [g] := by
      simp [mergeWhole, exponentOf?_eq_none hx hfs hmem]
    rw [List.foldl_cons, hmerge]
    exact ih (hfs.append (List.forall_mem_singleton.mpr ⟨x, hx⟩)) hrest hnodup

end Factor

namespace Product

variable {canonical : Tree → Except Fault Tree}

/-- The factor is the placeholder or a power of an atom in canonical form. -/
def IsInert (canonical : Tree → Except Fault Tree) (f : Factor) : Prop :=
  f = .placeholder ∨ f.Normal ∧ canonical f.base = .ok f.base

/-- The product after gathering items with inert factors. -/
def gathering (p : Product) (items : List Item) : Product :=
  { p with
    top := ((tops items).filter Factor.stays).foldl Factor.mergeWhole p.top
    bottom := ((bottoms items).filter Factor.stays).foldl Factor.mergeWhole p.bottom }

theorem gathering_append (p : Product) (items items' : List Item) :
    p.gathering (items ++ items') = (p.gathering items).gathering items' := by
  simp [gathering, tops_append, bottoms_append]

section
variable (hnumber : ∀ v, canonical (.number v) = .ok (.number v))
include hnumber

theorem merge_whole {fs : List Factor} {f : Factor} (h : Factor.AllWhole fs)
    (hf : ∃ n : Int, f.exponent = .whole n) : merge canonical fs f = .ok (Factor.mergeWhole fs f) := by
  obtain ⟨n, hn⟩ := hf
  cases he : Factor.exponentOf? fs f.base with
  | none => simp [merge, Factor.mergeWhole, he]
  | some e =>
    obtain ⟨g, hg, rfl⟩ := Factor.exponentOf?_eq_some he
    obtain ⟨m, hm⟩ := h g hg
    simp [merge, Factor.mergeWhole, he, hm, hn, canonicalSum_whole hnumber]

theorem step_inert {p : Product} {f : Factor} (onTop : Bool) (hf : IsInert canonical f)
    (htop : Factor.AllWhole p.top) (hbottom : Factor.AllWhole p.bottom) :
    p.step canonical ⟨f, onTop⟩ = .ok (p.gathering [⟨f, onTop⟩], []) ∧
      Factor.AllWhole (p.gathering [⟨f, onTop⟩]).top ∧
      Factor.AllWhole (p.gathering [⟨f, onTop⟩]).bottom := by
  rcases hf with rfl | ⟨hnormal, hbase⟩
  · have hnorm : Factor.placeholder.normalize canonical = .ok ⟨.one, .whole 1⟩ := by
      rw [Factor.placeholder, ← Tree.whole_one]
      exact Factor.normalize_ok hnumber (hnumber _) rfl
    have hvalue : (⟨.one, .whole 1⟩ : Factor).value? = .ok (some .one) := by
      rw [Tree.whole_one]
      exact Factor.value?_placeholder
    rw [step_plain hnorm p onTop one_ne_zero hvalue]
    cases onTop <;>
      simp [fold, Value.mul_one, gathering, tops, bottoms, Factor.stays_placeholder, htop, hbottom]
  · have hstays := hnormal.stays
    obtain ⟨hatom, hbaseNormal, n, hn, he⟩ := Factor.normal_iff.mp hnormal
    obtain ⟨b, e⟩ := f
    simp only at hatom hbaseNormal he hbase
    subst he
    rw [step_atom (Factor.normalize_ok hnumber hbase hbaseNormal) p onTop hn hatom
      (Factor.value?_of_not_plain (hatom.plainValue? hbaseNormal))]
    have hwhole : ∃ m : Int, (⟨b, .whole n⟩ : Factor).exponent = .whole m := ⟨n, rfl⟩
    cases onTop
    · simp [gather, merge_whole hnumber hbottom hwhole, gathering, tops, bottoms, hstays, htop,
        hbottom.mergeWhole hwhole]
    · simp [gather, merge_whole hnumber htop hwhole, gathering, tops, bottoms, hstays, hbottom,
        htop.mergeWhole hwhole]

theorem run_inert {items : List Item} {steps : Nat} {p : Product}
    (hitems : ∀ i ∈ items, IsInert canonical i.factor) (htop : Factor.AllWhole p.top)
    (hbottom : Factor.AllWhole p.bottom) (hsteps : items.length ≤ steps) :
    run canonical steps p items = .ok (p.gathering items) := by
  induction items generalizing steps p with
  | nil => cases steps <;> rfl
  | cons item rest ih =>
    obtain ⟨k, rfl⟩ : ∃ k, steps = k + 1 := ⟨steps - 1, by simp at hsteps; omega⟩
    obtain ⟨hitem, hrest⟩ := List.forall_mem_cons.mp hitems
    obtain ⟨f, onTop⟩ := item
    obtain ⟨hstep, htop', hbottom'⟩ := step_inert hnumber onTop hitem htop hbottom
    have hlength : rest.length ≤ k := Nat.le_of_succ_le_succ hsteps
    have hrun := ih hrest htop' hbottom' hlength
    rw [← gathering_append] at hrun
    simpa [run, hstep] using hrun

end

theorem cancel_of_disjoint {p : Product} (htop : Factor.AllMean I p.top)
    (hbottom : Factor.AllMean I p.bottom)
    (hdisjoint : (p.top.map (·.base)).Disjoint (p.bottom.map (·.base))) :
    p.cancel canonical = .ok p := by
  have hnone : (p.top.filter fun f => (Factor.exponentOf? p.bottom f.base).isSome) = [] := by
    rw [List.filter_eq_nil_iff]
    intro f hf
    obtain ⟨x, hx⟩ := htop f hf
    have hmem : f.base ∉ p.bottom.map (·.base) := hdisjoint (List.mem_map_of_mem hf)
    simp [Factor.exponentOf?_eq_none hx hbottom hmem]
  rw [cancel, hnone]
  rfl

end Product

namespace Term

/-- The bases of the factors of a term, without the placeholders. -/
def bases (t : Term) : List Tree := ((t.top ++ t.bottom).filter Factor.stays).map (·.base)

/-- Nothing is left to do at a term itself. -/
structure IsFinal (t : Term) : Prop where
  lowest : t.InLowestTerms
  nodup : t.bases.Nodup
  zero : t.multiplier.isZero = true → t = .zero

/-- The terms have the same factors, whatever their order. -/
def SameFactors (s t : Term) : Prop := s.top.Perm t.top ∧ s.bottom.Perm t.bottom

/-- The term is a sum with coefficients. -/
def IsMultipleOfSum (t : Term) : Prop :=
  ∃ ts, t.top = [⟨.sum ts, .one⟩] ∧ t.bottom = [.placeholder]

/-- The term keeps its factors when terms like it are added to it, neither vanishes nor turns out to
be a sum. -/
structure IsSummand (t : Term) : Prop where
  nonzero : t.isZero = .ok false
  positive : ∀ f ∈ t.bottom, 0 < f.exponent.wholePart
  multiple : t.IsMultipleOfSum → 1 < t.coefficient

/-- Nothing is left to do between the terms of a sum. -/
structure AreFinal (ts : List Term) : Prop where
  unlike : ts.Pairwise fun s t => ¬ s.SameFactors t
  sorted : sorted ts = .ok ts
  isSummand : ∀ t ∈ ts, t.IsSummand

end Term

namespace Tree

/-- Nothing is left to do at the root of a tree. -/
def IsFinalNode : Tree → Prop
  | .term t => t.IsFinal
  | .sum ts => Term.AreFinal ts
  | .call _ args => ∀ a ∈ args, a.reduce = .ok a
  | _ => True

/-- A normal tree with a meaning in which nothing is left to do. -/
structure IsFinal (I : Interpretation) (c : Tree) : Prop where
  normal : c.Normal
  meaning : ∃ q, c.meaning? I = some q
  nodes : ∀ s ∈ c.nodes, s.IsFinalNode

/-- A final form without containers around it. -/
structure IsCanonical (I : Interpretation) (c : Tree) : Prop where
  final : c.IsFinal I
  reduced : c.reduce = .ok c

theorem isFinal_number (q : Rat) : (number (.exact q)).IsFinal I :=
  ⟨rfl, ⟨q, rfl⟩, by simp [nodes, IsFinalNode]⟩

theorem isFinal_constant (c : Constant) : (constant c).IsFinal I :=
  ⟨trivial, ⟨_, rfl⟩, by simp [nodes, IsFinalNode]⟩

theorem isFinal_variable (name : String) : (Tree.variable name).IsFinal I :=
  ⟨trivial, ⟨_, rfl⟩, by simp [nodes, IsFinalNode]⟩

theorem isFinalNode_of_factor {f : Factor} (hexponent : ∃ n : Int, f.exponent = .whole n)
    (hbase : f.base.IsFinal I) : ∀ s ∈ f.nodes, s.IsFinalNode := by
  obtain ⟨base, exponent⟩ := f
  obtain ⟨n, rfl⟩ := hexponent
  refine List.forall_mem_cons.mpr ⟨trivial, List.forall_mem_append.mpr ⟨hbase.nodes, ?_⟩⟩
  exact List.forall_mem_singleton.mpr trivial

theorem isFinal_term {t : Term} (hnormal : t.Normal) (hmeaning : ∃ q, t.meaning? I = some q)
    (ht : t.IsFinal) (hbases : ∀ f ∈ t.top ++ t.bottom, f.base.IsFinal I) : (term t).IsFinal I := by
  refine ⟨hnormal, hmeaning, ?_⟩
  obtain ⟨-, -, htop, hbottom⟩ := Term.normal_iff.mp hnormal
  obtain ⟨m, d, top, bottom⟩ := t
  have hfactors : ∀ f ∈ top ++ bottom, ∃ n : Int, f.exponent = .whole n :=
    List.forall_mem_append.mpr ⟨htop.allWhole, hbottom.allWhole⟩
  have hnodes : ∀ f ∈ top ++ bottom, ∀ s ∈ f.nodes, s.IsFinalNode :=
    fun f hf => isFinalNode_of_factor (hfactors f hf) (hbases f hf)
  refine List.forall_mem_cons.mpr ⟨ht, List.forall_mem_append.mpr ⟨?_, ?_⟩⟩ <;> intro s hs
  · obtain ⟨f, hf, hs⟩ := Factor.mem_nodesOfAll.mp hs
    exact hnodes f (List.mem_append_left _ hf) s hs
  · obtain ⟨f, hf, hs⟩ := Factor.mem_nodesOfAll.mp hs
    exact hnodes f (List.mem_append_right _ hf) s hs

theorem isFinal_sum {ts : List Term} (hlength : 2 ≤ ts.length)
    (hmeaning : ∃ q, (sum ts).meaning? I = some q) (hts : Term.AreFinal ts)
    (hterms : ∀ t ∈ ts, (term t).IsFinal I) : (sum ts).IsFinal I := by
  refine ⟨⟨hlength, Term.allNormal_iff.mpr fun t ht => (hterms t ht).normal⟩, hmeaning,
    List.forall_mem_cons.mpr ⟨hts, fun s hs => ?_⟩⟩
  obtain ⟨t, ht, hs⟩ := Term.mem_nodesOfAll.mp hs
  exact (hterms t ht).nodes s hs

theorem isFinal_call {f : Function} {args : List Tree} (hnormal : (call f args).Normal)
    (hmeaning : ∃ q, (call f args).meaning? I = some q) (hargs : ∀ a ∈ args, a.IsCanonical I) :
    (call f args).IsFinal I := by
  refine ⟨hnormal, hmeaning,
    List.forall_mem_cons.mpr ⟨fun a ha => (hargs a ha).reduced, fun s hs => ?_⟩⟩
  obtain ⟨a, ha, hs⟩ := mem_nodesOfAll.mp hs
  exact (hargs a ha).final.nodes s hs

theorem IsFinal.isFinal_self {t : Term} (h : (term t).IsFinal I) : t.IsFinal :=
  h.nodes _ (self_mem_nodes _)

theorem nodes_subset_of_factor {t : Term} {f : Factor} (hf : f ∈ t.top ++ t.bottom) :
    f.nodes ⊆ (term t).nodes := by
  obtain ⟨m, d, top, bottom⟩ := t
  intro s hs
  refine List.mem_cons_of_mem _ (List.mem_append.mpr ?_)
  exact (List.mem_append.mp hf).imp (fun hf => Factor.mem_nodesOfAll.mpr ⟨f, hf, hs⟩)
    (fun hf => Factor.mem_nodesOfAll.mpr ⟨f, hf, hs⟩)

theorem base_nodes_subset (f : Factor) : f.base.nodes ⊆ f.nodes := by
  obtain ⟨b, e⟩ := f
  exact fun s hs => List.mem_cons_of_mem _ (List.mem_append_left _ hs)

/-- The base of a factor is canonical, since a placeholder stands for a number. -/
theorem IsFinal.base {t : Term} (h : (term t).IsFinal I) :
    ∀ f ∈ t.top ++ t.bottom, f.base.IsCanonical I := by
  intro f hf
  obtain ⟨q, hq⟩ := h.meaning
  obtain ⟨-, -, htop, hbottom⟩ := Term.normal_iff.mp h.normal
  have hside : ∀ fs, Factor.NormalSide fs → f ∈ fs →
      f.base.Normal ∧ f.base.reduce = .ok f.base := by
    rintro fs (rfl | ⟨-, hfs⟩) hf
    · obtain rfl := List.mem_singleton.mp hf
      exact ⟨rfl, rfl⟩
    · obtain ⟨hatom, hnormal, -⟩ := Factor.normal_iff.mp (hfs f hf)
      exact ⟨hnormal, hatom.reduce hnormal⟩
  obtain ⟨hnormal, hreduce⟩ := (List.mem_append.mp hf).elim (hside _ htop) (hside _ hbottom)
  exact ⟨⟨hnormal, Term.exists_base_meaning hq f hf,
    fun s hs => h.nodes s (nodes_subset_of_factor hf (base_nodes_subset f hs))⟩, hreduce⟩

/-- Taking the containers off a final form gives a canonical tree. -/
theorem IsFinal.reduce {c : Tree} (h : c.IsFinal I) : ∃ r, c.reduce = .ok r ∧ r.IsCanonical I := by
  cases c with
  | power f => exact h.normal.elim
  | term t =>
    rcases Term.Normal.reduce_cases h.normal with hself | ⟨m, -, hnumber⟩ | ⟨base, -, -, rfl, hbase⟩
    · exact ⟨_, hself, h, hself⟩
    · exact ⟨_, hnumber, isFinal_number m, rfl⟩
    · exact ⟨base, hbase, h.base _ (List.mem_append_left _ List.mem_cons_self)⟩
  | sum ts =>
    match ts, h with
    | _ :: _ :: _, h => exact ⟨_, rfl, h, rfl⟩
    | [], h | [_], h => exact absurd h.normal.1 (by simp)
  | _ => exact ⟨_, rfl, h, rfl⟩

theorem IsFinal.summand {ts : List Term} (h : (sum ts).IsFinal I) :
    ∀ t ∈ ts, (term t).IsFinal I := by
  intro t ht
  obtain ⟨q, hq⟩ := h.meaning
  exact ⟨Term.allNormal_iff.mp h.normal.2 t ht, Term.exists_meaning_of_mem hq ht,
    fun s hs => h.nodes s (List.mem_cons_of_mem _ (Term.mem_nodesOfAll.mpr ⟨t, ht, hs⟩))⟩

theorem IsFinal.arg {f : Function} {args : List Tree} (h : (call f args).IsFinal I) :
    ∀ a ∈ args, a.IsCanonical I := by
  intro a ha
  obtain ⟨q, hq⟩ := h.meaning
  obtain ⟨qs, hqs, -⟩ := Option.bind_eq_some_iff.mp hq
  exact ⟨⟨allNormal_iff.mp h.normal.1 a ha, exists_meaning_of_mem hqs ha,
    fun s hs => h.nodes s (List.mem_cons_of_mem _ (mem_nodesOfAll.mpr ⟨a, ha, hs⟩))⟩,
    h.nodes _ (self_mem_nodes _) a ha⟩

end Tree

theorem Value.reduceRatio_lowest {n d : Int} (hd : 0 < d) (h : n.gcd d = 1) :
    reduceRatio (.exact n) (.exact d) = .ok (.exact n, .exact d) := by
  have hd0 : (d : Rat) ≠ 0 := by exact_mod_cast hd.ne'
  obtain ⟨hnum, hden⟩ := Value.num_den_of_lowest hd h
  rw [reduceRatio_eq_num_den _ hd0, hnum, hden]

theorem Factor.NormalSide.kept_filter {fs : List Factor} (h : NormalSide fs) :
    kept (fs.filter stays) = fs := by
  have hkept := h.kept_eq
  unfold kept at hkept ⊢
  rwa [List.filter_filter, List.filter_congr fun f _ => Bool.and_self f.stays]

namespace Term

variable {canonical : Tree → Except Fault Tree} {steps : Nat}

theorem run_normal {t : Term} (hnumber : ∀ v, canonical (.number v) = .ok (.number v))
    (h : t.Normal) (hbases : ∀ f ∈ t.top ++ t.bottom, f.Normal → canonical f.base = .ok f.base)
    (hsteps : t.top.length + t.bottom.length ≤ steps) :
    Product.run canonical steps ⟨t.multiplier, t.divisor, [], []⟩
        (Product.items t.top t.bottom true) =
      .ok ⟨t.multiplier, t.divisor, (t.top.filter Factor.stays).foldl Factor.mergeWhole [],
        (t.bottom.filter Factor.stays).foldl Factor.mergeWhole []⟩ := by
  obtain ⟨-, -, htop, hbottom⟩ := normal_iff.mp h
  have hinert : ∀ fs, Factor.NormalSide fs → (∀ f ∈ fs, f ∈ t.top ++ t.bottom) →
      ∀ f ∈ fs, Product.IsInert canonical f := by
    rintro fs (rfl | ⟨-, hfs⟩) hmem f hf
    · exact .inl (List.mem_singleton.mp hf)
    · exact .inr ⟨hfs f hf, hbases f (hmem f hf) (hfs f hf)⟩
  have hitems : ∀ i ∈ Product.items t.top t.bottom true, Product.IsInert canonical i.factor :=
    Product.forall_mem_items (R := Product.IsInert canonical) <| List.forall_mem_append.mpr
      ⟨hinert t.top htop fun f hf => List.mem_append_left _ hf,
        hinert t.bottom hbottom fun f hf => List.mem_append_right _ hf⟩
  have hlength : (Product.items t.top t.bottom true).length ≤ steps := by
    simpa [Product.items] using hsteps
  have hnil : Factor.AllWhole [] := List.forall_mem_nil _
  rw [Product.run_inert (p := ⟨t.multiplier, t.divisor, [], []⟩) hnumber hitems hnil hnil hlength]
  simp [Product.gathering]

theorem simplifyBy_of_nodup {t : Term} {q m d n l : Rat}
    (hnumber : ∀ v, canonical (.number v) = .ok (.number v)) (h : t.Normal)
    (hq : t.meaning? I = some q) (hnodup : t.bases.Nodup) (hm : t.multiplier = .exact m)
    (hm0 : m ≠ 0) (hd : t.divisor = .exact d)
    (hratio : Value.reduceRatio (.exact m) (.exact d) = .ok (.exact n, .exact l))
    (hbases : ∀ f ∈ t.top ++ t.bottom, f.Normal → canonical f.base = .ok f.base)
    (hsteps : t.top.length + t.bottom.length ≤ steps) :
    t.simplifyBy steps canonical = .ok ⟨.exact n, .exact l, t.top, t.bottom⟩ := by
  obtain ⟨-, -, htop, hbottom⟩ := normal_iff.mp h
  -- no two factors have the same base, so each is gathered as it is
  have hmean : ∀ fs : List Factor, (∀ f ∈ fs, f ∈ t.top ++ t.bottom) →
      Factor.AllMean I (fs.filter Factor.stays) :=
    fun fs hmem f hf => exists_base_meaning hq f (hmem f (List.mem_of_mem_filter hf))
  have hmeanTop := hmean t.top fun f hf => List.mem_append_left _ hf
  have hmeanBottom := hmean t.bottom fun f hf => List.mem_append_right _ hf
  rw [bases, List.filter_append, List.map_append] at hnodup
  obtain ⟨hnodupTop, hnodupBottom, hne⟩ := List.nodup_append.mp hnodup
  have hnil : Factor.AllMean I [] := List.forall_mem_nil _
  have hrun := run_normal hnumber h hbases hsteps
  rw [Factor.foldl_mergeWhole_eq_append hnil hmeanTop hnodupTop,
    Factor.foldl_mergeWhole_eq_append hnil hmeanBottom hnodupBottom, List.nil_append,
    List.nil_append] at hrun
  have hcancel : Product.cancel canonical
      ⟨t.multiplier, t.divisor, t.top.filter Factor.stays, t.bottom.filter Factor.stays⟩ = .ok _ :=
    Product.cancel_of_disjoint hmeanTop hmeanBottom fun b hb hb' => hne b hb b hb' rfl
  have hfoldable : ∀ fs, Factor.NormalSide fs → ∀ f ∈ fs.filter Factor.stays, f.IsFoldable :=
    fun fs hfs f hf => hfs.isFoldable f (List.mem_of_mem_filter hf)
  have hterm := Product.toTerm_eq
    (p := ⟨t.multiplier, t.divisor, t.top.filter Factor.stays, t.bottom.filter Factor.stays⟩)
    hm hm0 hd hratio (hfoldable _ htop) (hfoldable _ hbottom)
  rw [htop.kept_filter, hbottom.kept_filter] at hterm
  have hnonzero : t.multiplier.isZero = false := by simp [hm, hm0]
  simp only [simplifyBy, hnonzero, hrun, hcancel, hterm, ok_bind, Bool.false_eq_true, if_false]

theorem simplifyBy_isFinal {t : Term} (hnumber : ∀ v, canonical (.number v) = .ok (.number v))
    (h : (Tree.term t).IsFinal I)
    (hbases : ∀ f ∈ t.top ++ t.bottom, f.Normal → canonical f.base = .ok f.base)
    (hsteps : t.top.length + t.bottom.length ≤ steps) : t.simplifyBy steps canonical = .ok t := by
  obtain ⟨q, hq⟩ := h.meaning
  obtain ⟨⟨n, d, hn, hd, hpos, hcoprime⟩, hnodup, hzero⟩ := h.isFinal_self
  by_cases hn0 : n = 0
  · obtain rfl := hzero (by simp [hn, hn0])
    rfl
  · have hkeeps := simplifyBy_of_nodup hnumber h.normal hq hnodup hn (by exact_mod_cast hn0) hd
      (Value.reduceRatio_lowest hpos hcoprime) hbases hsteps
    rw [← hn, ← hd] at hkeeps
    cases t
    exact hkeeps

theorem combine_of_unlike {combined : List Term} {t : Term}
    (h : ∀ s ∈ combined, s.isLike t = false) :
    combine steps canonical combined t = .ok (combined ++ [t]) := by
  induction combined with
  | nil => rfl
  | cons s combined ih =>
    obtain ⟨hs, hrest⟩ := List.forall_mem_cons.mp h
    simp [combine, hs, ih hrest]

/-- A summand is not reduced to a sum. -/
theorem IsSummand.reduce_ok {t : Term} (h : t.IsSummand) (hnormal : t.Normal) :
    ∃ c, t.reduce = .ok c ∧ ∀ ts, c ≠ .sum ts := by
  rcases hnormal.reduce_cases with hself | ⟨m, -, hnumber⟩ | ⟨base, -, -, rfl, hbase⟩
  · exact ⟨_, hself, by simp⟩
  · exact ⟨_, hnumber, by simp⟩
  · refine ⟨base, hbase, fun ts hts => ?_⟩
    have hlarge := h.multiple ⟨ts, by rw [hts], rfl⟩
    rw [coefficient_eq rfl rfl] at hlarge
    norm_num at hlarge

theorem combineAll_isFinal {n : Nat} {combined pending : List Term} (hn : pending.length ≤ n)
    (hpending : ∀ t ∈ pending, t.simplifyBy steps canonical = .ok t ∧ t.Normal ∧ t.IsSummand)
    (hunlike : (combined ++ pending).Pairwise fun s t => s.isLike t = false) :
    combineAll steps canonical n combined pending = .ok (combined ++ pending) := by
  induction n generalizing combined pending with
  | zero =>
    obtain rfl := List.length_eq_zero_iff.mp (Nat.le_zero.mp hn)
    rw [List.append_nil]
    rfl
  | succ n ih =>
    cases pending with
    | nil =>
      rw [List.append_nil]
      rfl
    | cons t pending =>
      obtain ⟨⟨hself, hnormal, hsummand⟩, hrest⟩ := List.forall_mem_cons.mp hpending
      obtain ⟨c, hc, hnot⟩ := hsummand.reduce_ok hnormal
      have happend : combined ++ t :: pending = combined ++ [t] ++ pending := by simp
      have hcombine : combine steps canonical combined t = .ok (combined ++ [t]) :=
        combine_of_unlike fun s hs =>
          (List.pairwise_append.mp hunlike).2.2 s hs t List.mem_cons_self
      have hnext := ih (Nat.le_of_succ_le_succ hn) hrest (happend ▸ hunlike)
      rw [happend, ← hnext]
      cases c with
      | sum ts => exact absurd rfl (hnot ts)
      | _ => simp [combineAll, hself, hc, hsummand.nonzero, hcombine]

end Term

namespace Term

theorem isLike_eq_false_iff {s t : Term} {p q : Rat} (hs : s.meaning? I = some p)
    (ht : t.meaning? I = some q) : s.isLike t = false ↔ ¬ s.SameFactors t := by
  rw [SameFactors, ← isLike_iff hs ht, Bool.not_eq_true]

theorem AreFinal.isLike {ts : List Term} (h : AreFinal ts)
    (hmeaning : ∀ t ∈ ts, ∃ q, t.meaning? I = some q) :
    ts.Pairwise fun s t => s.isLike t = false := by
  refine h.unlike.imp_of_mem fun {s t} hs ht hunlike => ?_
  obtain ⟨p, hp⟩ := hmeaning s hs
  obtain ⟨q, hq⟩ := hmeaning t ht
  exact (isLike_eq_false_iff hp hq).mpr hunlike

variable {canonical : Tree → Except Fault Tree} {steps : Nat}

theorem simplifySumBy_isFinal {ts : List Term} (hne : ts ≠ []) (h : AreFinal ts)
    (hself : ∀ t ∈ ts, t.simplifyBy steps canonical = .ok t) (hterms : ∀ t ∈ ts, (Tree.term t).IsFinal I)
    (hlength : ts.length ≤ steps) : simplifySumBy steps canonical ts = .ok ts := by
  have hpending : ∀ t ∈ ts, t.simplifyBy steps canonical = .ok t ∧ t.Normal ∧ t.IsSummand :=
    fun t ht => ⟨hself t ht, (hterms t ht).normal, h.isSummand t ht⟩
  have hrun : combineAll steps canonical steps [] ts = .ok ([] ++ ts) := combineAll_isFinal hlength
    hpending (h.isLike fun t ht => (hterms t ht).meaning)
  have hfilter : ts.filterM (fun t => do return !(← t.isZero)) = .ok ts := by
    rw [filterM_eq_ok_filter (g := fun _ => true) fun t ht => by
      simp [(h.isSummand t ht).nonzero]]
    simp
  have hsummed : summed ts = .ok ts := by
    rw [summed, if_neg (by simpa using hne)]
    exact h.sorted
  simp only [simplifySumBy, hrun, ok_bind, List.nil_append, hfilter, hsummed]

end Term

theorem Tree.base_size_lt {t : Term} {f : Factor} (h : f ∈ t.top ++ t.bottom) :
    f.base.size < t.size := by
  have hle : (power f).size ≤ (term t).size :=
    size_le_of_mem_nodes _ (nodes_subset_of_factor h (power f).self_mem_nodes)
  obtain ⟨b, e⟩ := f
  simp only [size, Factor.size] at hle ⊢
  omega

theorem Term.length_add_length_lt_size (t : Term) : t.top.length + t.bottom.length + 2 < t.size := by
  obtain ⟨m, d, top, bottom⟩ := t
  have htop := Factor.length_le_sizes top
  have hbottom := Factor.length_le_sizes bottom
  simp only [size]
  omega

theorem Term.length_le_sizes (ts : List Term) : ts.length ≤ sizes ts := by
  induction ts with
  | nil => simp
  | cons t ts ih =>
    have hpos := t.length_add_length_lt_size
    simp only [List.length_cons, sizes]
    omega

namespace Tree

variable {c s : Tree} {n : Nat}

/-- Simplification leaves a final form as it is, within as many steps as it has nodes. -/
theorem IsFinal.simplifyWith_eq (h : c.IsFinal I) (hn : c.size ≤ n) : c.simplifyWith n = .ok c := by
  induction n generalizing c with
  | zero =>
    have hpos := c.effort_pos
    have hle := c.effort_le_size
    omega
  | succ n ih =>
    have hcanonical : ∀ {b : Tree}, b.IsCanonical I → b.size ≤ n → canonicalWith n b = .ok b := by
      intro b hb hle
      rw [canonicalWith, ih hb.final hle]
      exact hb.reduced
    have hterm : ∀ {t : Term}, (term t).IsFinal I → t.size ≤ n + 1 →
        t.simplifyBy n (canonicalWith n) = .ok t := by
      intro t ht hle
      have hlength := t.length_add_length_lt_size
      refine Term.simplifyBy_isFinal (fun v => ?_) ht (fun f hf _ => ?_) (by omega)
      · cases n with
        | zero => omega
        | succ k => rfl
      · have hlt := base_size_lt hf
        exact hcanonical (ht.base f hf) (by omega)
    cases c with
    | number v => rfl
    | constant _ => rfl
    | «variable» _ => rfl
    | power f => exact h.normal.elim
    | term t => simp [simplifyWith_succ, simplifyBy, hterm h hn]
    | sum ts =>
      have hsize : Term.sizes ts ≤ n := by
        simp only [size] at hn
        omega
      have hself : ∀ t ∈ ts, t.simplifyBy n (canonicalWith n) = .ok t := by
        intro t ht
        have hle := Term.size_le_of_mem_nodesOfAll ts
          (Term.mem_nodesOfAll.mpr ⟨t, ht, (term t).self_mem_nodes⟩)
        exact hterm (h.summand t ht) (hle.trans (hsize.trans n.le_succ))
      have hne : ts ≠ [] := List.ne_nil_of_length_pos (Nat.lt_of_lt_of_le Nat.two_pos h.normal.1)
      have hsum := Term.simplifySumBy_isFinal hne (h.nodes _ (self_mem_nodes _)) hself h.summand
        ((Term.length_le_sizes ts).trans hsize)
      simp [simplifyWith_succ, simplifyBy, hsum]
    | call f args =>
      have hsize : sizes args ≤ n := by
        simp only [size] at hn
        omega
      have hargs : args.mapM (canonicalWith n) = .ok (args.map id) := mapM_eq_ok_map fun a ha =>
        hcanonical (h.arg a ha) <|
          (size_le_of_mem_nodesOfAll args (mem_nodesOfAll.mpr ⟨a, ha, a.self_mem_nodes⟩)).trans hsize
      simp [simplifyWith_succ, simplifyBy, hargs]

/-- Whatever comes of simplifying a final form is the final form. -/
theorem IsFinal.eq_of_simplifyWith (h : c.IsFinal I) (hs : c.simplifyWith n = .ok s) : s = c := by
  have hself := h.simplifyWith_eq (n := max n c.size) (Nat.le_max_right _ _)
  rcases simplifyWith_approximates (Nat.le_max_left n c.size) c with hexhausted | hsame
  · rw [hexhausted] at hs
    cases hs
  · rw [hsame, hself] at hs
    exact (Except.ok.inj hs).symm

theorem IsFinal.simplifyBy_eq {t : Term} (h : (term t).IsFinal I) (hn : t.size ≤ n + 1) :
    t.simplifyBy n (canonicalWith n) = .ok t := by
  have hterm := h.simplifyWith_eq hn
  rw [simplifyWith_succ] at hterm
  obtain ⟨u, hu, heq⟩ := map_eq_ok.mp hterm
  obtain rfl : u = t := by simpa using heq
  exact hu

theorem IsFinal.eq_of_simplifyBy {t v : Term} (h : (term t).IsFinal I)
    (hv : t.simplifyBy n (canonicalWith n) = .ok v) : v = t := by
  have hsimplified : (term t).simplifyWith (n + 1) = .ok (.term v) := by
    simp [simplifyWith_succ, simplifyBy, hv]
  simpa using h.eq_of_simplifyWith hsimplified

theorem IsCanonical.eq_of_canonicalWith (h : c.IsCanonical I) (hs : c.canonicalWith n = .ok s) :
    s = c := by
  obtain ⟨c', hc', hreduce⟩ := bind_eq_ok.mp hs
  rw [h.final.eq_of_simplifyWith hc'] at hreduce
  exact Except.ok.inj (hreduce.symm.trans h.reduced)

end Tree

end SymbolicAlgebra
