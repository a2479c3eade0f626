import SymbolicAlgebra.Proofs.Finishing
import SymbolicAlgebra.Proofs.MoreSteps
import SymbolicAlgebra.Proofs.Settling

/-!
# Rewriting terminates

Simplifying a tree takes simplifying trees that come before it by level and height: exponents and what
is computed of them are of lower level, and bases, terms of sums and arguments are of lower height and
no higher level. So simplification finishes, by induction on level and height. Expansion and evaluation
recur on the parts of a tree and simplify what they build, so they finish as well.
-/

namespace SymbolicAlgebra

open Outcome

namespace Value

theorem roundFloat_onlyOverflows (x : Float) : OnlyOverflows (roundFloat x) := by
  unfold roundFloat
  split
  · simp [FailsOnly]
  · exact .ok _

theorem scaleToInteger_onlyOverflows (v : Value) (places : Nat) :
    OnlyOverflows (v.scaleToInteger places) :=
  v.toFloat_onlyOverflows.bind fun _ => (toFloat_onlyOverflows _).bind fun _ =>
    roundFloat_onlyOverflows _

theorem reduceRatio_onlyOverflows (m d : Value) : OnlyOverflows (reduceRatio m d) := by
  have hdiv : OnlyOverflows (do return (← m.div d, one) : Except Fault (Value × Value)) :=
    (div_onlyOverflows m d).bind fun _ => .ok _
  unfold reduceRatio
  refine .ite (.ok _) ?_
  split
  · exact .ok _
  · split
    · refine .ite ?_ hdiv
      exact (scaleToInteger_onlyOverflows _ _).bind fun _ =>
        (scaleToInteger_onlyOverflows _ _).bind fun _ => .ok _
    · exact hdiv

end Value

theorem Tree.integer?_onlyOverflows (t : Tree) : OnlyOverflows t.integer? := by
  refine t.plainValue?_onlyOverflows.bind fun v => ?_
  split <;> exact .ok _

namespace Factor

theorem joins_onlyOverflows (f : Factor) : OnlyOverflows f.joins := by
  refine f.exponent.integer?_onlyOverflows.bind fun n => ?_
  split
  · exact .ok _
  · exact f.base.isNegative_onlyOverflows.bind fun _ => .ok _

theorem allJoin_onlyOverflows (fs : List Factor) : OnlyOverflows (allJoin fs) := by
  induction fs with
  | nil => exact .ok _
  | cons f fs ih => exact f.joins_onlyOverflows.bind fun _ => .ite ih (.ok _)

end Factor

namespace Product

theorem fold_onlyOverflows (p : Product) (v : Value) (onTop : Bool) :
    OnlyOverflows (p.fold v onTop) :=
  .ite ((Value.mul_onlyOverflows _ _).bind fun _ => .ok _)
    ((Value.mul_onlyOverflows _ _).bind fun _ => .ok _)

theorem multiplyBy_onlyOverflows (p : Product) (n d : Value) (onTop : Bool) :
    OnlyOverflows (p.multiplyBy n d onTop) :=
  (Value.mul_onlyOverflows _ _).bind fun _ => (Value.mul_onlyOverflows _ _).bind fun _ => .ok _

theorem raised_onlyOverflows (fs : List Factor) (power : Int) : OnlyOverflows (raised fs power) :=
  .mapM (fun _ => (Tree.multiply_onlyOverflows _ _).bind fun _ => .ok _) fs

theorem toTerm_onlyOverflows (p : Product) : OnlyOverflows p.toTerm :=
  .ite (.ok _) ((Value.reduceRatio_onlyOverflows _ _).bind fun _ => Term.of_onlyOverflows _ _ _ _)

end Product

/-- Everything of lower level, or of the same level and lower height, can be brought to canonical form
in some number of steps. -/
structure Reaches (canonical : Nat → Tree → Except Fault Tree) (level height : Nat) : Prop where
  settles : ∀ n, Settles (canonical n)
  finishes : ∀ t : Tree, t.level < level ∨ t.level ≤ level ∧ t.height < height →
    Finishes fun n => canonical n t

section
variable {canonical : Nat → Tree → Except Fault Tree} {l h : Nat} (hcanonical : Reaches canonical l h)
include hcanonical

theorem Factor.normalize_finishes {f : Factor} (hf : f.Bounded l h) :
    Finishes fun n => f.normalize (canonical n) := by
  refine (hcanonical.finishes f.base (.inr hf.base)).bind fun n base hbase => ?_
  refine (hcanonical.finishes f.exponent (.inl hf.exponent_lt)).bind fun n' exponent _ => ?_
  have hpower := (hcanonical.settles n hbase).1.ne_power
  cases base with
  | power f => exact (hpower f rfl).elim
  | _ => exact .ok _

theorem Tree.canonicalSum_finishes {s t : Tree} (hs : s.level < l) (ht : t.level < l) :
    Finishes fun n => s.canonicalSum (canonical n) t := by
  refine (s.add_onlyOverflows t).finishes.bind fun _ sum hsum => hcanonical.finishes sum (.inl ?_)
  have hlevel := add_level hsum (Nat.le_sub_one_of_lt hs) (Nat.le_sub_one_of_lt ht)
  omega

namespace Product

theorem merge_finishes {fs : List Factor} {f : Factor} (hfs : ∀ g ∈ fs, g.SettledWithin l h)
    (hf : f.Bounded l h) : Finishes fun n => merge (canonical n) fs f := by
  unfold merge
  split
  · next e he =>
    obtain ⟨g, hg, rfl⟩ := Factor.exponentOf?_eq_some he
    exact (Tree.canonicalSum_finishes hcanonical (hfs g hg).exponent_lt hf.exponent_lt).bind
      fun _ _ _ => .ok _
  · exact .ok _

theorem gather_finishes {p : Product} {f : Factor} (onTop : Bool) (hp : p.SettledWithin l h)
    (hf : f.Bounded l h) : Finishes fun n => p.gather (canonical n) f onTop := by
  obtain ⟨htop, hbottom⟩ := List.forall_mem_append.mp hp
  cases onTop with
  | true => exact (merge_finishes hcanonical htop hf).bind fun _ _ _ => .ok _
  | false => exact (merge_finishes hcanonical hbottom hf).bind fun _ _ _ => .ok _

theorem step_finishes {p : Product} {item : Item} (hp : p.SettledWithin l h)
    (hitem : item.factor.Bounded l h) : Finishes fun n => p.step (canonical n) item := by
  refine (Factor.normalize_finishes hcanonical hitem).bind fun n f hf => ?_
  obtain ⟨-, hunder⟩ := Factor.normalize_settles (hcanonical.settles n) hf
  have hwithin : f.Bounded l h := ⟨hunder.level.trans hitem.level, hunder.height.trans hitem.height⟩
  have hgather : Finishes fun n => (do return (← p.gather (canonical n) f item.onTop, []) :
      Except Fault (Product × List Item)) :=
    (gather_finishes hcanonical item.onTop hp hwithin).bind fun _ _ _ => .ok _
  refine (f.exponent.isZero_onlyOverflows).finishes.bind fun _ zero _ => ?_
  cases zero with
  | true => exact .ok _
  | false =>
    refine f.value?_onlyOverflows.finishes.bind fun _ value? _ => ?_
    cases value? with
    | some v => exact ((p.fold_onlyOverflows v _).bind fun _ => .ok _).finishes
    | none =>
      refine f.exponent.integer?_onlyOverflows.finishes.bind fun _ integer? _ => ?_
      split
      · refine (Factor.allJoin_onlyOverflows _).finishes.bind fun _ joins _ => ?_
        cases joins with
        | false => exact hgather
        | true =>
          refine FailsOnly.finishes ?_
          exact (Value.pow_onlyOverflows _ _).bind fun n => (Value.pow_onlyOverflows _ _).bind fun d =>
            (p.multiplyBy_onlyOverflows n d _).bind fun _ => (raised_onlyOverflows _ _).bind fun _ =>
              (raised_onlyOverflows _ _).bind fun _ => .ok _
      · exact hgather

theorem run_finishes {p : Product} {items : List Item} (hp : p.SettledWithin l h)
    (hitems : ∀ i ∈ items, i.factor.Bounded l h) :
    Finishes fun n => run (canonical n) n p items := by
  refine FinishesWith.worklist (fun n => step (canonical n)) (fun n => run (canonical n))
    (SettledWithin l h) (fun i => i.factor.height) h (fun n k p => by cases k <;> rfl)
    (fun n k p i rest => rfl) (fun i hi => hi.height)
    (fun p i hp hi => step_finishes hcanonical hp hi) ?_ hp hitems
  intro n p item p' more hp hitem hstep
  obtain ⟨hp', hmore⟩ := step_settles (hcanonical.settles n) hstep hp hitem
  refine ⟨hp', fun i hi => ?_⟩
  obtain ⟨hlevel, hheight⟩ := hmore i hi
  exact ⟨⟨hlevel, hheight.le.trans hitem.height⟩, hheight⟩

theorem cancelBase_finishes {p : Product} (base : Tree) (hp : p.SettledWithin l h) :
    Finishes fun n => p.cancelBase (canonical n) base := by
  obtain ⟨htop, hbottom⟩ := List.forall_mem_append.mp hp
  unfold cancelBase
  split
  · next m k hm hk =>
    obtain ⟨g, hg, rfl⟩ := Factor.exponentOf?_eq_some hm
    obtain ⟨g', hg', rfl⟩ := Factor.exponentOf?_eq_some hk
    have hnegated : ∀ {e o : Tree}, e.negate = .ok o → e.level < l → o.level < l := by
      intro e o ho he
      have hlevel := Tree.negate_level ho (Nat.le_sub_one_of_lt he)
      omega
    refine (g'.exponent.negate_onlyOverflows).finishes.bind fun _ opposite hopposite => ?_
    have hopposite := hnegated hopposite (hbottom g' hg').exponent_lt
    refine (Tree.canonicalSum_finishes hcanonical (htop g hg).exponent_lt hopposite).bind
      fun n exponent hexponent => ?_
    obtain ⟨-, hlevel⟩ := Tree.canonicalSum_settles (hcanonical.settles n) hexponent
      (htop g hg).exponent_lt hopposite
    refine exponent.plainValue?_onlyOverflows.finishes.bind fun _ value? _ => ?_
    split
    · refine exponent.negate_onlyOverflows.finishes.bind fun _ e he => ?_
      exact (hcanonical.finishes e (.inl (hnegated he hlevel))).bind fun _ _ _ => .ok _
    · exact (exponent.isZero_onlyOverflows.bind fun _ => .ite (.ok _) (.ok _)).finishes
  · exact .ok _

theorem cancel_finishes {p : Product} (hp : p.SettledWithin l h) :
    Finishes fun n => p.cancel (canonical n) := by
  refine FinishesWith.foldlM (P := fun p => p.SettledWithin l h) hp ?_
    fun p f _ hp => cancelBase_finishes hcanonical f.base hp
  intro n p₁ p₂ f hf hp₁ hp₂
  exact cancelBase_settles (hcanonical.settles n) hp₂ hp₁
    (hp f (List.mem_append_left _ (List.mem_filter.mp hf).1))

end Product

namespace Term

theorem simplifyBy_finishes {t : Term} (ht : t.Bounded l h) :
    Finishes fun n => t.simplifyBy n (canonical n) := by
  unfold simplifyBy
  split
  · exact .ok _
  · have hempty : Product.SettledWithin l h ⟨t.multiplier, t.divisor, [], []⟩ := by
      simp [Product.SettledWithin]
    refine (Product.run_finishes hcanonical hempty ht.items).bind fun n p hp => ?_
    have hp := Product.run_settles (hcanonical.settles n) hp hempty ht.items
    exact (Product.cancel_finishes hcanonical hp).bind fun _ p' _ => p'.toTerm_onlyOverflows.finishes

theorem combine_finishes {combined : List Term} {t : Term}
    (hcombined : ∀ s ∈ combined, s.SettledWithin l h) (ht : t.SettledWithin l h) :
    Finishes fun n => combine n (canonical n) combined t := by
  induction combined with
  | nil => exact .ok _
  | cons other rest ih =>
    obtain ⟨hother, hrest⟩ := List.forall_mem_cons.mp hcombined
    unfold combine
    split
    · next hlike =>
      refine (other.add_onlyOverflows t).finishes.bind fun _ total htotal => ?_
      obtain ⟨u, rfl, hu⟩ := add_of_isLike_within hother ht hlike htotal
      refine (simplifyBy_finishes hcanonical hu).bind fun _ v _ => ?_
      exact (v.isZero_onlyOverflows.bind fun _ => .ite (.ok _) (.ok _)).finishes
    · exact (ih hrest).bind fun _ _ _ => .ok _

theorem combineStep_finishes {combined : List Term} {t : Term}
    (hcombined : ∀ s ∈ combined, s.SettledWithin l h) (ht : t.Bounded l h) :
    Finishes fun n => combineStep n (canonical n) combined t := by
  refine (simplifyBy_finishes hcanonical ht).bind fun n u hu => ?_
  have hu := simplifyBy_settles (hcanonical.settles n) hu ht
  refine u.reduce_onlyOverflows.finishes.bind fun _ c _ => ?_
  split
  · exact .ok _
  · refine u.isZero_onlyOverflows.finishes.bind fun _ zero _ => ?_
    cases zero with
    | true => exact .ok _
    | false => exact (combine_finishes hcanonical hcombined hu).bind fun _ _ _ => .ok _

theorem simplifySumBy_finishes {ts : List Term} (hts : ∀ t ∈ ts, t.Bounded l h) :
    Finishes fun n => simplifySumBy n (canonical n) ts := by
  have hcombined : Finishes fun n => combineAll n (canonical n) n [] ts := by
    refine FinishesWith.worklist (fun n => combineStep n (canonical n)) (fun n => combineAll n (canonical n))
      (fun combined => ∀ s ∈ combined, s.SettledWithin l h) height h (fun n k s => by cases k <;> rfl)
      (fun n => combineAll_cons n) (fun t ht => ht.height)
      (fun s t hs ht => combineStep_finishes hcanonical hs ht) ?_ (by simp) hts
    intro n combined t combined' more hcombined ht hstep
    obtain ⟨hcombined', hmore⟩ := combineStep_settles (hcanonical.settles n) hstep hcombined ht
    refine ⟨hcombined', fun s hs => ?_⟩
    obtain ⟨hlevel, hheight⟩ := hmore s hs
    exact ⟨⟨hlevel, hheight.le.trans ht.height⟩, hheight⟩
  refine hcombined.bind fun _ combined _ => ?_
  refine (FailsOnly.filterM (fun t => t.isZero_onlyOverflows.bind fun _ => .ok _) _).finishes.bind
    fun _ nonzero _ => (summed_onlyOverflows _).finishes

end Term

end

/-- A tree can be simplified in some number of steps if everything before it can be brought to
canonical form in some number of steps. -/
theorem Tree.simplifyBy_finishes {canonical : Nat → Tree → Except Fault Tree} {t : Tree}
    (hcanonical : Reaches canonical t.level t.height) :
    Finishes fun n => t.simplifyBy n (canonical n) := by
  cases t with
  | term t => exact (Term.simplifyBy_finishes hcanonical ⟨le_rfl, le_rfl⟩).map _
  | power f =>
    refine (Factor.normalize_finishes hcanonical ⟨le_rfl, le_rfl⟩).bind fun n g hg => ?_
    obtain ⟨-, hunder⟩ := Factor.normalize_settles (hcanonical.settles n) hg
    refine g.value?_onlyOverflows.finishes.bind fun _ value? _ => ?_
    cases value? with
    | some v => exact .ok _
    | none =>
      refine (Term.of_onlyOverflows _ _ _ _).finishes.bind fun _ u hu => ?_
      have hu := Term.ofFactor_under hu
      exact (Term.simplifyBy_finishes hcanonical ⟨hu.level.trans hunder.level,
        hu.height.trans hunder.height⟩).bind fun _ _ _ => .ok _
  | sum ts =>
    refine (Term.simplifySumBy_finishes hcanonical fun t ht => ?_).map _
    obtain ⟨hunder, hheight⟩ := Term.under_sum ht
    exact ⟨hunder.level, hheight.le⟩
  | call f args =>
    have hlevel := (highestLevel_le.mp (le_refl (highestLevel args))).2
    have hheight := highestHeight_le.mp (le_refl (highestHeight args))
    refine (FinishesWith.mapM fun t ht => hcanonical.finishes t (.inr ⟨hlevel t ht, ?_⟩)).map _
    have hle := hheight t ht
    simp only [height]
    omega
  | _ => exact .ok _

/-- Every tree can be brought to canonical form in some number of steps. -/
theorem Tree.canonicalWith_finishes (t : Tree) : Finishes fun n => t.canonicalWith n := by
  have hreaches : Reaches (fun n => Tree.canonicalWith n) t.level t.height :=
    ⟨canonicalWith_settles, fun s _ => s.canonicalWith_finishes⟩
  refine FinishesWith.of_succ ?_
  exact (simplifyBy_finishes hreaches).bind fun _ s _ => s.reduce_onlyOverflows.finishes
termination_by (t.level, t.height)
decreasing_by
  rw [Prod.lex_def]
  omega

theorem Tree.simplifyWith_finishes (t : Tree) : Finishes fun n => t.simplifyWith n :=
  .of_succ (simplifyBy_finishes ⟨canonicalWith_settles, fun s _ => s.canonicalWith_finishes⟩)

mutual

theorem Tree.pieces_onlyOverflows : (t : Tree) → OnlyOverflows t.pieces
  | .power f => f.pieces_onlyOverflows
  | .term t | .sum [t] => t.unwrappedPieces_onlyOverflows
  | .number _ | .constant _ | .variable _ | .call _ _ | .sum [] | .sum (_ :: _ :: _) => .ok _

theorem Factor.pieces_onlyOverflows : (f : Factor) → OnlyOverflows f.pieces
  | ⟨base, exponent⟩ =>
    exponent.isOne_onlyOverflows.bind fun _ => .ite base.pieces_onlyOverflows (.ok _)

theorem Term.unwrappedPieces_onlyOverflows : (t : Term) → OnlyOverflows t.unwrappedPieces
  | ⟨multiplier, divisor, [⟨base, exponent⟩], bottom⟩ => by
    refine (Term.denominatorIsOne_onlyOverflows _).bind fun whole => .ite ?_ (.ok _)
    refine (Factor.isOne_onlyOverflows _).bind fun one => .ite (.ok _) ?_
    have hrest : ∀ unwraps : Bool, OnlyOverflows (if unwraps then base.pieces
        else do return .number multiplier :: (← Factor.pieces ⟨base, exponent⟩)) := fun unwraps =>
      .ite base.pieces_onlyOverflows
        ((Factor.pieces_onlyOverflows ⟨base, exponent⟩).bind fun _ => .ok _)
    exact .ite (exponent.isOne_onlyOverflows.bind hrest) (hrest false)
  | ⟨multiplier, divisor, [], bottom⟩ => by
    rw [Term.unwrappedPieces]
    · exact (Term.denominatorIsOne_onlyOverflows _).bind fun _ =>
        .ite ((Factor.piecesOfAll_onlyOverflows []).bind fun _ => .ok _) (.ok _)
    · simp
  | ⟨multiplier, divisor, f :: g :: rest, bottom⟩ => by
    rw [Term.unwrappedPieces]
    · exact (Term.denominatorIsOne_onlyOverflows _).bind fun _ =>
        .ite ((Factor.piecesOfAll_onlyOverflows (f :: g :: rest)).bind fun _ => .ok _) (.ok _)
    · simp

theorem Factor.piecesOfAll_onlyOverflows : (fs : List Factor) →
    OnlyOverflows (Factor.piecesOfAll fs)
  | [] => .ok _
  | f :: rest => f.pieces_onlyOverflows.bind fun _ =>
      (Factor.piecesOfAll_onlyOverflows rest).bind fun _ => .ok _

end

namespace Term

theorem simplifySumWith_finishes (ts : List Term) : Finishes fun n => simplifySumWith n ts := by
  refine simplifySumBy_finishes (l := (Tree.sum ts).level) (h := (Tree.sum ts).height)
    ⟨Tree.canonicalWith_settles, fun t _ => t.canonicalWith_finishes⟩ fun t ht => ?_
  obtain ⟨hunder, hheight⟩ := under_sum ht
  exact ⟨hunder.level, hheight.le⟩

theorem multiplyOut_finishes (ss ts : List Term) : Finishes fun n => multiplyOut n ss ts := by
  have hproducts : OnlyOverflows (products ss ts) :=
    .mapM (fun _ => (Value.mul_onlyOverflows _ _).bind fun _ =>
      (Value.mul_onlyOverflows _ _).bind fun _ => of_onlyOverflows _ _ _ _) _
  exact hproducts.finishes.bind fun _ us _ => (summed_onlyOverflows us).finishes.bind
    fun _ us _ => simplifySumWith_finishes us

theorem powerOut_finishes (ts : List Term) (k : Nat) : Finishes fun n => powerOut n ts k := by
  induction k with
  | zero => exact (summed_onlyOverflows _).finishes
  | succ k ih => exact ih.bind fun _ us _ => multiplyOut_finishes us ts

theorem multiplyIn_finishes (output : List Term) (t : Tree) :
    Finishes fun n => multiplyIn n output t := by
  have hall : OnlyOverflows (multiplyAll output t) :=
    (FailsOnly.mapM (fun s => s.times_onlyOverflows t) output).bind summed_onlyOverflows
  cases t with
  | sum ts => exact multiplyOut_finishes output ts
  | _ => exact hall.finishes

end Term

mutual

/-- Every tree can be expanded in some number of steps. -/
theorem Tree.expandWith_finishes : (t : Tree) → Finishes fun n => t.expandWith n
  | .number _ | .constant _ | .variable _ => .ok _
  | .power f => f.expandWith_finishes
  | .term t => t.expandWith_finishes
  | .sum ts => (Term.expandedSummands_finishes ts).bind fun _ us _ =>
      (Term.summed_onlyOverflows us).finishes.bind fun _ us _ => Tree.canonicalWith_finishes (.sum us)
  | .call _ args => (Tree.expandAllWith_finishes args).bind fun _ _ _ => .ok _

theorem Factor.expandWith_finishes : (f : Factor) → Finishes fun n => f.expandWith n
  | ⟨base, exponent⟩ => by
    refine base.expandWith_finishes.bind fun _ base _ => ?_
    refine exponent.expandWith_finishes.bind fun _ exponent _ => ?_
    refine exponent.canonicalWith_finishes.bind fun _ exponent _ => ?_
    refine exponent.isOne_onlyOverflows.finishes.bind fun _ one _ => ?_
    cases one with
    | true => exact .ok _
    | false =>
      refine base.reduce_onlyOverflows.finishes.bind fun _ reduced _ => ?_
      refine exponent.integer?_onlyOverflows.finishes.bind fun _ power? _ => ?_
      split
      · split
        · exact (Term.powerOut_finishes _ _).bind fun _ us _ =>
            (Tree.reduce_onlyOverflows (.sum us)).finishes
        · exact .ok _
      · exact (Term.of_onlyOverflows _ _ _ _).finishes.bind fun _ t _ =>
          Tree.canonicalWith_finishes (.term t)
      · exact .ok _

theorem Term.expandWith_finishes : (t : Term) → Finishes fun n => t.expandWith n
  | ⟨_, _, top, bottom⟩ => by
    refine (Factor.expandProductWith_finishes top _).bind fun _ numerator _ => ?_
    refine (Factor.expandProductWith_finishes bottom _).bind fun _ denominator _ => ?_
    refine (Tree.reduce_onlyOverflows _).finishes.bind fun _ s _ => ?_
    refine (Tree.reduce_onlyOverflows _).finishes.bind fun _ t _ => ?_
    exact (Term.of_onlyOverflows _ _ _ _).finishes.bind fun _ t _ =>
      Tree.canonicalWith_finishes (.term t)

theorem Factor.expandProductWith_finishes : (fs : List Factor) → (output : List Term) →
    Finishes fun n => Factor.expandProductWith n output fs
  | [], _ => .ok _
  | f :: rest, output => by
    refine f.expandWith_finishes.bind fun _ t _ => ?_
    refine t.pieces_onlyOverflows.finishes.bind fun _ pieces _ => ?_
    have hfold : Finishes fun n => pieces.foldlM (Term.multiplyIn n) output :=
      FinishesWith.foldlM (P := fun _ => True) trivial (fun _ _ _ _ _ _ _ => trivial)
        fun output piece _ _ => Term.multiplyIn_finishes output piece
    exact hfold.bind fun _ output _ => Factor.expandProductWith_finishes rest output

theorem Term.expandedSummands_finishes : (ts : List Term) →
    Finishes fun n => Term.expandedSummands n ts
  | [] => .ok _
  | t :: rest => t.expandWith_finishes.bind fun _ s _ => s.summands_onlyOverflows.finishes.bind
      fun _ _ _ => (Term.expandedSummands_finishes rest).bind fun _ _ _ => .ok _

theorem Tree.expandAllWith_finishes : (ts : List Tree) → Finishes fun n => Tree.expandAllWith n ts
  | [] => .ok _
  | t :: rest => t.expandWith_finishes.bind fun _ _ _ =>
      (Tree.expandAllWith_finishes rest).bind fun _ _ _ => .ok _

end

namespace Function

theorem apply_faults (f : Function) (args : List Value) :
    FailsOnly (fun e => e = .overflow ∨ e = .argumentCount f args.length) (f.apply args) := by
  refine .ite ?_ (.ok _)
  refine ((FailsOnly.mapM Value.toFloat_onlyOverflows args).mono fun _ => .inl).bind fun xs => ?_
  split
  · exact .ok _
  · exact .error (.inr rfl)

theorem apply_onlyOverflows {f : Function} {args : List Value} (hlength : args.length = f.arity) :
    OnlyOverflows (f.apply args) := by
  by_cases h : f.isComputable = true
  · refine .ite ?_ (.ok _)
    refine (FailsOnly.mapM Value.toFloat_onlyOverflows args).bind_ok fun xs hxs => ?_
    obtain ⟨x, hx⟩ := Option.isSome_iff_exists.mp
      (isSome_compute? h ((length_mapM hxs).trans hlength))
    rw [hx]
    exact .ok _
  · rw [apply_of_not_isComputable args (Bool.eq_false_iff.mpr h)]
    exact .ok _

end Function

/-- A function that is called fails only with the given faults at as many values as it has
arguments. -/
def Tree.AppliesWith (F : Fault → Prop) : Tree → Prop
  | .call f args => ∀ values : List Value, values.length = args.length → FailsOnly F (f.apply values)
  | _ => True

section
variable {scope : Option Scope} {n : Nat}

theorem Tree.length_evaluateAllWith {ts us : List Tree}
    (h : Tree.evaluateAllWith n scope ts = .ok us) : us.length = ts.length := by
  induction ts generalizing us with
  | nil => rw [← Except.ok.inj h]
  | cons t ts ih =>
    obtain ⟨u, -, h⟩ := bind_eq_ok.mp h
    obtain ⟨us', hus', h⟩ := bind_eq_ok.mp h
    rw [← Except.ok.inj h, List.length_cons, List.length_cons, ih hus']

end

theorem Value.length_mapM_id {values? : List (Option Value)} {values : List Value}
    (h : values?.mapM id = some values) : values.length = values?.length := by
  induction values? generalizing values with
  | nil =>
    obtain rfl := Option.some.inj h
    rfl
  | cons v? rest ih =>
    rw [List.mapM_cons] at h
    obtain ⟨v, -, h⟩ := Option.bind_eq_some_iff.mp h
    obtain ⟨vs, hvs, h⟩ := Option.bind_eq_some_iff.mp h
    rw [← Option.some.inj h, List.length_cons, List.length_cons, ih hvs]

section
variable {scope : Option Scope} {F : Fault → Prop}

theorem Tree.canonicalWith_finishesWith (hF : F .overflow) (t : Tree) :
    FinishesWith F fun n => t.canonicalWith n :=
  t.canonicalWith_finishes.mono fun _ he => he ▸ hF

mutual

/-- Evaluation fails only with an overflow or as the functions do that the tree calls. -/
theorem Tree.evaluateWith_finishes (hF : F .overflow) : (t : Tree) →
    (∀ s ∈ t.nodes, s.AppliesWith F) → FinishesWith F fun n => t.evaluateWith n scope
  | .number _, _ => .ok _
  | .constant c, _ => by
    simp only [Tree.evaluateWith]
    split <;> exact .ok _
  | .variable name, _ => by
    simp only [Tree.evaluateWith]
    split <;> exact .ok _
  | .power f, ht => f.evaluateWith_finishes hF ht
  | .term t, ht => t.evaluateWith_finishes hF ht
  | .sum ts, ht => by
    refine (Term.evaluateAllWith_finishes hF ts (List.forall_mem_cons.mp ht).2).bind fun _ us _ => ?_
    exact ((Term.summed_onlyOverflows us).within hF).finishes.bind fun _ us _ =>
      Tree.canonicalWith_finishesWith hF (.sum us)
  | .call f args, ht => by
    obtain ⟨hcall, hargs⟩ := List.forall_mem_cons.mp ht
    refine (Tree.evaluateAllWith_finishes hF args hargs).bind fun _ us hus => ?_
    refine ((FailsOnly.mapM Tree.plainValue?_onlyOverflows us).within hF).finishes.bind
      fun _ values? hvalues? => ?_
    split
    · next values hvalues =>
      have hlength : values.length = args.length :=
        ((Value.length_mapM_id hvalues).trans (length_mapM hvalues?)).trans
          (Tree.length_evaluateAllWith hus)
      split
      · exact ((hcall values hlength).map _).finishes
      · exact .ok _
    · exact .ok _

theorem Factor.evaluateWith_finishes (hF : F .overflow) : (f : Factor) →
    (∀ s ∈ f.nodes, s.AppliesWith F) → FinishesWith F fun n => f.evaluateWith n scope
  | ⟨base, exponent⟩, hf => by
    obtain ⟨hbase, hexponent⟩ := List.forall_mem_append.mp (List.forall_mem_cons.mp hf).2
    refine (base.evaluateWith_finishes hF hbase).bind fun _ base _ => ?_
    refine (exponent.evaluateWith_finishes hF hexponent).bind fun _ exponent _ => ?_
    refine (base.plainValue?_onlyOverflows.within hF).finishes.bind fun _ b _ => ?_
    refine (exponent.plainValue?_onlyOverflows.within hF).finishes.bind fun _ e _ => ?_
    split
    · exact (((Value.pow_onlyOverflows _ _).map _).within hF).finishes
    · exact .ok _

theorem Term.evaluateWith_finishes (hF : F .overflow) : (t : Term) →
    (∀ s ∈ t.nodes, s.AppliesWith F) → FinishesWith F fun n => t.evaluateWith n scope
  | ⟨multiplier, divisor, top, bottom⟩, ht => by
    obtain ⟨htop, hbottom⟩ := List.forall_mem_append.mp (List.forall_mem_cons.mp ht).2
    unfold Term.evaluateWith
    split
    · exact .ok _
    split
    · exact .ok _
    refine (Factor.evaluateAllWith_finishes hF top htop).bind fun _ top _ => ?_
    refine (Factor.evaluateAllWith_finishes hF bottom hbottom).bind fun _ bottom _ => ?_
    refine ((Term.of_onlyOverflows _ _ _ _).within hF).finishes.bind fun _ rebuilt _ => ?_
    split
    · exact .ok _
    · refine (Tree.canonicalWith_finishesWith hF (.term rebuilt)).bind fun _ t _ => ?_
      split <;> exact .ok _

theorem Factor.evaluateAllWith_finishes (hF : F .overflow) : (fs : List Factor) →
    (∀ s ∈ Factor.nodesOfAll fs, s.AppliesWith F) →
    FinishesWith F fun n => Factor.evaluateAllWith n scope fs
  | [], _ => .ok _
  | f :: rest, hfs => by
    obtain ⟨hf, hrest⟩ := List.forall_mem_append.mp hfs
    exact (f.evaluateWith_finishes hF hf).bind fun _ _ _ =>
      (Factor.evaluateAllWith_finishes hF rest hrest).bind fun _ _ _ => .ok _

theorem Term.evaluateAllWith_finishes (hF : F .overflow) : (ts : List Term) →
    (∀ s ∈ Term.nodesOfAll ts, s.AppliesWith F) →
    FinishesWith F fun n => Term.evaluateAllWith n scope ts
  | [], _ => .ok _
  | t :: rest, hts => by
    obtain ⟨ht, hrest⟩ := List.forall_mem_append.mp hts
    exact (t.evaluateWith_finishes hF ht).bind fun _ s _ =>
      (s.toTerm_onlyOverflows.within hF).finishes.bind fun _ _ _ =>
        (Term.evaluateAllWith_finishes hF rest hrest).bind fun _ _ _ => .ok _

theorem Tree.evaluateAllWith_finishes (hF : F .overflow) : (ts : List Tree) →
    (∀ s ∈ Tree.nodesOfAll ts, s.AppliesWith F) →
    FinishesWith F fun n => Tree.evaluateAllWith n scope ts
  | [], _ => .ok _
  | t :: rest, hts => by
    obtain ⟨ht, hrest⟩ := List.forall_mem_append.mp hts
    exact (t.evaluateWith_finishes hF ht).bind fun _ _ _ =>
      (Tree.evaluateAllWith_finishes hF rest hrest).bind fun _ _ _ => .ok _

end

end

/-- What a run finishes as is what comes out of it within as many steps as suffice. -/
theorem Outcome.FinishesWith.withinSteps {α : Type} {F : Fault → Prop}
    {run : Nat → Except Fault α} (h : FinishesWith F run) (hF : ¬ F .exhausted)
    (hmono : ∀ {m n : Nat}, m ≤ n → Approximates (run m) (run n)) :
    FailsOnly F (withinSteps run) ∧ FinishesAs run (withinSteps run) := by
  obtain ⟨r, hr, enough, hrun⟩ := h
  have hne : r ≠ .error .exhausted := fun he => hF (hr _ he)
  have heq : SymbolicAlgebra.withinSteps run = r :=
    (withinSteps_eq hmono (hrun enough le_rfl ▸ hne)).trans (hrun enough le_rfl)
  rw [heq]
  exact ⟨hr, hne, enough, hrun⟩

namespace Tree

theorem simplify_finishes (t : Tree) :
    OnlyOverflows t.simplify ∧ FinishesAs (fun n => t.simplifyWith n) t.simplify :=
  t.simplifyWith_finishes.withinSteps (by simp) fun h => simplifyWith_approximates h t

theorem canonical_finishes (t : Tree) :
    FinishesAs (fun n => t.canonicalWith n) t.canonical := by
  obtain ⟨-, hne, enough, hrun⟩ := t.simplify_finishes
  refine ⟨fun he => ?_, enough, fun n hn => ?_⟩
  · rcases bind_eq_error.mp he with he | ⟨s, -, he⟩
    · exact hne he
    · simpa using s.reduce_onlyOverflows _ he
  · exact congrArg (· >>= reduce) (hrun n hn)

theorem expand_finishes (t : Tree) :
    OnlyOverflows t.expand ∧ FinishesAs (fun n => t.expandWith n) t.expand :=
  t.expandWith_finishes.withinSteps (by simp) fun h => t.expandWith_approximates h

theorem evaluate_faults {t : Tree} (h : ∀ s ∈ t.nodes, s.AppliesWith (· = .overflow))
    (scope : Option Scope) : OnlyOverflows (t.evaluate scope) :=
  ((t.evaluateWith_finishes (F := (· = .overflow)) rfl h).withinSteps (by simp)
    fun h => t.evaluateWith_approximates h).1

theorem evaluate_finishes (t : Tree) (scope : Option Scope) :
    FinishesAs (fun n => t.evaluateWith n scope) (t.evaluate scope) := by
  have hcalls : ∀ s ∈ t.nodes, s.AppliesWith (· ≠ .exhausted) := by
    intro s _
    cases s with
    | call f args =>
      intro values _
      refine (f.apply_faults values).mono fun e he => ?_
      rcases he with rfl | rfl <;> simp
    | _ => trivial
  exact ((t.evaluateWith_finishes (by simp) hcalls).withinSteps (by simp)
    fun h => t.evaluateWith_approximates h).2

/-- Rewriting terminates. For every tree some number of steps, which bounds the depth of the recursion
and the length of every worklist, suffices to simplify it, to bring it to canonical form, to expand it
and to evaluate it in any scope, and any larger number leads to the same tree or fault. -/
theorem rewriting_terminates (t : Tree) :
    FinishesAs (fun n => t.simplifyWith n) t.simplify ∧
      FinishesAs (fun n => t.canonicalWith n) t.canonical ∧
      FinishesAs (fun n => t.expandWith n) t.expand ∧
      ∀ scope, FinishesAs (fun n => t.evaluateWith n scope) (t.evaluate scope) :=
  ⟨t.simplify_finishes.2, t.canonical_finishes, t.expand_finishes.2, t.evaluate_finishes⟩

end Tree

end SymbolicAlgebra
