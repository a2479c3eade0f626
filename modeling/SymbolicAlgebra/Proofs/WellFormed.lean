import SymbolicAlgebra.Formula.Reading
import SymbolicAlgebra.Proofs.Composition
import SymbolicAlgebra.Proofs.Legibility
import SymbolicAlgebra.Proofs.Overflow

/-!
# Trees that are read

A tree that is read from a text has every compositional property that constants, variables and calls
have, for no operation makes a tree without the property out of trees with it. Being well-formed is
such a property. Reading a text fails as a misreading, or where a power that is computed lies beyond
the doubles.
-/

namespace SymbolicAlgebra

open Outcome

theorem Factor.allWellFormed_iff {fs : List Factor} :
    AllWellFormed fs ↔ ∀ f ∈ fs, f.IsWellFormed := by
  induction fs with
  | nil => simp [AllWellFormed]
  | cons f fs ih => simp [AllWellFormed, ih]

theorem Term.allWellFormed_iff {ts : List Term} : AllWellFormed ts ↔ ∀ t ∈ ts, t.IsWellFormed := by
  induction ts with
  | nil => simp [AllWellFormed]
  | cons t ts ih => simp [AllWellFormed, ih]

theorem Tree.allWellFormed_iff {ts : List Tree} : AllWellFormed ts ↔ ∀ t ∈ ts, t.IsWellFormed := by
  induction ts with
  | nil => simp [AllWellFormed]
  | cons t ts ih => simp [AllWellFormed, ih]

theorem Tree.isWellFormed_term_iff {t : Term} :
    (term t).IsWellFormed ↔ ∀ f ∈ t.top ++ t.bottom, (power f).IsWellFormed := by
  obtain ⟨m, d, top, bottom⟩ := t
  simp only [IsWellFormed, Term.IsWellFormed, Factor.allWellFormed_iff, List.forall_mem_append]

theorem Tree.isWellFormed_compositional : Compositional IsWellFormed where
  number _ := trivial
  power_iff {f} := by
    obtain ⟨base, exponent⟩ := f
    exact Iff.rfl
  of_term := isWellFormed_term_iff.mp
  withMultiplier _ h := by
    have hfactors := isWellFormed_term_iff.mp h
    exact isWellFormed_term_iff.mpr hfactors
  term h := by
    obtain ⟨htop, hbottom⟩ := List.forall_mem_append.mp h
    have hplaceholder : (power .placeholder).IsWellFormed := ⟨trivial, trivial⟩
    exact isWellFormed_term_iff.mpr (List.forall_mem_append.mpr
      ⟨Factor.forall_mem_side hplaceholder fun f hf => (htop f hf).2,
        Factor.forall_mem_side hplaceholder fun f hf => (hbottom f hf).2⟩)
  of_sum h := Term.allWellFormed_iff.mp h.2
  sum hne h := ⟨hne, Term.allWellFormed_iff.mpr h⟩
  of_call h := allWellFormed_iff.mp h.2
  call h hlength hargs := ⟨hlength.trans h.1, allWellFormed_iff.mpr hargs⟩

/-- A compositional property that constants and variables have, and calls with as many arguments as
they need if the arguments have it. -/
structure Tree.Readable (P : Tree → Prop) : Prop extends Tree.Compositional P where
  ofConstant (c : Constant) : P (.constant c)
  ofName {name : String} : Lexeme.IsName name → P (.variable name)
  ofCall {f : Function} {args : List Tree} : args.length = f.arity → (∀ a ∈ args, P a) →
    P (.call f args)

theorem Tree.isWellFormed_readable : Readable IsWellFormed where
  toCompositional := isWellFormed_compositional
  ofConstant _ := trivial
  ofName h := h
  ofCall hlength hargs := ⟨hlength, allWellFormed_iff.mpr hargs⟩

section
variable {P : Tree → Prop} (hP : Tree.Readable P)
include hP

theorem Operator.apply_inherits {o : Operator} {ts : List Tree} {c : Tree} (h : o.apply ts = .ok c)
    (hlength : ts.length = o.arity) (hts : ∀ t ∈ ts, P t) : P c := by
  have hcompositional := hP.toCompositional
  cases o with
  | negate =>
    obtain ⟨t, rfl⟩ := List.length_eq_one_iff.mp hlength
    exact Tree.negate_inherits hcompositional h (hts t (by simp))
  | factorial =>
    obtain ⟨t, rfl⟩ := List.length_eq_one_iff.mp hlength
    obtain rfl := Except.ok.inj h
    exact hP.ofCall rfl hts
  | add =>
    obtain ⟨s, t, rfl⟩ := List.length_eq_two.mp hlength
    exact Tree.add_inherits hcompositional h (hts s (by simp)) (hts t (by simp))
  | subtract =>
    obtain ⟨s, t, rfl⟩ := List.length_eq_two.mp hlength
    exact Tree.subtract_inherits hcompositional h (hts s (by simp)) (hts t (by simp))
  | multiply | juxtapose =>
    obtain ⟨s, t, rfl⟩ := List.length_eq_two.mp hlength
    exact Tree.multiply_inherits hcompositional h (hts s (by simp)) (hts t (by simp))
  | divide =>
    obtain ⟨s, t, rfl⟩ := List.length_eq_two.mp hlength
    exact Tree.divide_inherits hcompositional h (hts s (by simp)) (hts t (by simp))
  | remainder =>
    obtain ⟨s, t, rfl⟩ := List.length_eq_two.mp hlength
    obtain rfl := Except.ok.inj h
    exact hP.ofCall rfl hts
  | raise =>
    obtain ⟨s, t, rfl⟩ := List.length_eq_two.mp hlength
    obtain rfl := Except.ok.inj h
    exact hP.power_iff.mpr ⟨hts s (by simp), hts t (by simp)⟩

end

theorem Operator.apply_arity_onlyOverflows {o : Operator} {ts : List Tree}
    (hlength : ts.length = o.arity) : OnlyOverflows (o.apply ts) := by
  cases o with
  | negate =>
    obtain ⟨t, rfl⟩ := List.length_eq_one_iff.mp hlength
    exact t.negate_onlyOverflows
  | factorial =>
    obtain ⟨t, rfl⟩ := List.length_eq_one_iff.mp hlength
    exact .ok _
  | raise =>
    obtain ⟨s, t, rfl⟩ := List.length_eq_two.mp hlength
    exact .ok _
  | _ =>
    obtain ⟨s, t, rfl⟩ := List.length_eq_two.mp hlength
    exact Operator.apply_onlyOverflows s t (by decide)

namespace Lexeme

/-- An operand holds a tree with the property. -/
def Holds (P : Tree → Prop) : Lexeme → Prop
  | operand _ value => P value
  | _ => True

theorem ofUnit_holds {P : Tree → Prop} (hP : Tree.Readable P) (b : Brackets) (unit : String)
    (following : List String) : (ofUnit b unit following).Holds P := by
  unfold ofUnit
  split
  · trivial
  split
  · trivial
  split
  · trivial
  split
  · trivial
  split
  · exact hP.number _
  split
  · trivial
  split
  · exact hP.ofConstant _
  · next hconstant =>
    split
    · next hvariable => exact hP.ofName ⟨hvariable, hconstant⟩
    · trivial

theorem ofUnits_holds {P : Tree → Prop} (hP : Tree.Readable P) (b : Brackets)
    (units : List String) : ∀ l ∈ ofUnits b units, l.Holds P := by
  induction units with
  | nil => simp [ofUnits]
  | cons unit rest ih => exact List.forall_mem_cons.mpr ⟨ofUnit_holds hP b unit rest, ih⟩

theorem mem_of_unload {stack output p : List Lexeme} (h : unload stack output = .ok p)
    {l : Lexeme} (hl : l ∈ p) : l ∈ stack ∨ l ∈ output := by
  unfold unload at h
  split at h
  · cases h
  · obtain rfl := Except.ok.inj h
    rcases List.mem_append.mp hl with hl | hl
    · exact .inr (List.mem_reverse.mp hl)
    · exact .inl hl

theorem mem_of_takeWhile {stack output : List Lexeme} {p : Lexeme → Bool} {l : Lexeme}
    (hl : l ∈ (stack.takeWhile p).reverse ++ output) : l ∈ stack ∨ l ∈ output := by
  rcases List.mem_append.mp hl with hl | hl
  · exact .inl ((List.takeWhile_prefix p).subset (List.mem_reverse.mp hl))
  · exact .inr hl

theorem mem_of_close {text : String} {stack output : List Lexeme} {r : List Lexeme × List Lexeme}
    (h : close text stack output = .ok r) {l : Lexeme} (hl : l ∈ r.1 ∨ l ∈ r.2) :
    l ∈ stack ∨ l ∈ output := by
  have hdropped : ∀ {l}, l ∈ stack.dropWhile (!·.isOpening) → l ∈ stack ∨ l ∈ output :=
    fun h => .inl ((List.dropWhile_suffix _).subset h)
  unfold close at h
  split at h
  · cases h
  · next bracket f rest hrest =>
    obtain rfl := Except.ok.inj h
    rw [hrest] at hdropped
    rcases hl with hl | hl
    · exact hdropped (by simp [hl])
    · rcases List.mem_cons.mp hl with rfl | hl
      · exact hdropped (by simp)
      · exact mem_of_takeWhile hl
  · next bracket rest _ hrest =>
    obtain rfl := Except.ok.inj h
    rw [hrest] at hdropped
    rcases hl with hl | hl
    · exact hdropped (by simp [hl])
    · exact mem_of_takeWhile hl

theorem mem_of_shunt {ls stack output p : List Lexeme} (h : shunt ls stack output = .ok p)
    {l : Lexeme} (hl : l ∈ p) : l ∈ ls ∨ l ∈ stack ∨ l ∈ output := by
  fun_induction shunt ls stack output with
  | case1 stack output => exact .inr (mem_of_unload h hl)
  | case2 text value rest stack output ih =>
    have := ih h
    simp only [List.mem_cons] at this ⊢
    tauto
  | case3 text rest stack output ih =>
    have := ih h
    simp only [List.mem_cons] at this ⊢
    tauto
  | case4 f marker rest stack output ih =>
    have := ih h
    simp only [List.mem_cons] at this ⊢
    tauto
  | case5 f stack output => cases h
  | case6 o rest stack output ih =>
    rcases ih h with hl | hl | hl
    · exact .inl (List.mem_cons_of_mem _ hl)
    · rcases List.mem_cons.mp hl with rfl | hl
      · exact .inl List.mem_cons_self
      · exact .inr (.inl ((List.dropWhile_suffix _).subset hl))
    · exact .inr (mem_of_takeWhile hl)
  | case7 rest stack output ih =>
    rcases ih h with hl | hl | hl
    · exact .inl (List.mem_cons_of_mem _ hl)
    · exact .inr (.inl ((List.dropWhile_suffix _).subset hl))
    · exact .inr (mem_of_takeWhile hl)
  | case8 text rest stack output ih =>
    have := ih h
    simp only [List.mem_cons] at this ⊢
    tauto
  | case9 text rest stack output ih =>
    obtain ⟨⟨stack', output'⟩, hclose, h⟩ := bind_eq_ok.mp h
    rcases ih _ _ h with hl | hl
    · exact .inl (List.mem_cons_of_mem _ hl)
    · exact .inr (mem_of_close hclose hl)

theorem mem_of_toPostfix {ls p : List Lexeme} (h : toPostfix ls = .ok p) {l : Lexeme}
    (hl : l ∈ p) : l ∈ ls := by
  simpa using mem_of_shunt h hl

theorem takeOperands?_eq_some {count : Nat} {operands taken rest : List Tree}
    (h : takeOperands? count operands = some (taken, rest)) :
    taken.length = count ∧ operands = taken.reverse ++ rest := by
  unfold takeOperands? at h
  dsimp only at h
  split at h
  · next hlength =>
    obtain ⟨rfl, rfl⟩ := Prod.mk.inj (Option.some.inj h)
    exact ⟨by rw [List.length_reverse]; exact hlength, by simp⟩
  · cases h

section
variable {P : Tree → Prop} (hP : Tree.Readable P)
include hP

theorem buildStep_inherits {operands operands' : List Tree} {l : Lexeme}
    (h : buildStep operands l = .ok operands') (hl : l.Holds P)
    (hoperands : ∀ t ∈ operands, P t) : ∀ t ∈ operands', P t := by
  unfold buildStep at h
  split at h
  · obtain rfl := Except.ok.inj h
    exact List.forall_mem_cons.mpr ⟨hl, hoperands⟩
  · split at h
    · cases h
    · next o taken rest htaken =>
      obtain ⟨c, hc, h⟩ := bind_eq_ok.mp h
      obtain rfl := Except.ok.inj h
      obtain ⟨hlength, rfl⟩ := takeOperands?_eq_some htaken
      obtain ⟨htaken, hrest⟩ := List.forall_mem_append.mp hoperands
      exact List.forall_mem_cons.mpr ⟨Operator.apply_inherits hP hc hlength
        fun t ht => htaken t (List.mem_reverse.mpr ht), hrest⟩
  · split at h
    · cases h
    · next f taken rest htaken =>
      obtain rfl := Except.ok.inj h
      obtain ⟨hlength, rfl⟩ := takeOperands?_eq_some htaken
      obtain ⟨htaken, hrest⟩ := List.forall_mem_append.mp hoperands
      exact List.forall_mem_cons.mpr
        ⟨hP.ofCall hlength fun t ht => htaken t (List.mem_reverse.mpr ht), hrest⟩
  · cases h

theorem build_inherits {p : List Lexeme} {t : Tree} (h : build p = .ok t)
    (hp : ∀ l ∈ p, l.Holds P) : P t := by
  obtain ⟨operands, hoperands, h⟩ := bind_eq_ok.mp h
  have hall : ∀ t ∈ operands, P t :=
    foldlM_keeps (P := fun operands => ∀ t ∈ operands, P t) hoperands (by simp)
      fun _ l hl _ hs hstep => buildStep_inherits hP hstep (hp l hl) hs
  split at h
  · obtain rfl := Except.ok.inj h
    exact hP.number _
  · obtain rfl := Except.ok.inj h
    exact hall _ (by simp)
  · cases h

end

end Lexeme

/-- A tree that is read has every readable property. -/
theorem Formula.parse_inherits {P : Tree → Prop} (hP : Tree.Readable P) {b : Brackets}
    {text : String} {t : Tree} (h : parse b text = .ok t) : P t := by
  obtain ⟨p, hp, h⟩ := bind_eq_ok.mp h
  exact Lexeme.build_inherits hP h fun l hl =>
    Lexeme.ofUnits_holds hP b _ l (Lexeme.mem_of_toPostfix hp hl)

/-- Every tree that is read is well-formed. -/
theorem Formula.parse_isWellFormed {b : Brackets} {text : String} {t : Tree}
    (h : parse b text = .ok t) : t.IsWellFormed :=
  parse_inherits Tree.isWellFormed_readable h

end SymbolicAlgebra
