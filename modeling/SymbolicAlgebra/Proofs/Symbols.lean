import SymbolicAlgebra.Proofs.Degree
import SymbolicAlgebra.Proofs.Inheritance
import SymbolicAlgebra.Proofs.Termination

/-!
# The symbols of a tree

A vocabulary says which variables, constants and functions may occur in a tree. To be over a
vocabulary is compositional, so that rewriting makes no tree with other symbols: what is simplified
and expanded has no new ones, and what is evaluated has those for which the scope has no value and
those of the trees in the scope.
-/

namespace SymbolicAlgebra

open Outcome

/-- The variables, constants and functions that may occur in a tree. -/
structure Vocabulary where
  hasVariable : String → Prop
  hasConstant : Constant → Prop
  hasFunction : Function → Prop

/-- Whether the symbol of a node, if it has one, may occur. -/
def Vocabulary.Admits (V : Vocabulary) : Tree → Prop
  | .constant c => V.hasConstant c
  | .variable name => V.hasVariable name
  | .call f _ => V.hasFunction f
  | _ => True

namespace Tree

/-- The constants of a tree, one for each place where one stands, in preorder. -/
def constants (t : Tree) : List Constant :=
  t.nodes.filterMap fun
    | .constant c => some c
    | _ => none

/-- The tree has no symbols but those of the vocabulary. -/
def IsOver (V : Vocabulary) (t : Tree) : Prop := ∀ s ∈ t.nodes, V.Admits s

theorem mem_variables {t : Tree} {name : String} :
    name ∈ t.variables ↔ .variable name ∈ t.nodes := by
  unfold Tree.variables
  rw [List.mem_filterMap]
  constructor
  · rintro ⟨s, hs, hname⟩
    cases s <;> simp_all
  · intro h
    exact ⟨_, h, rfl⟩

theorem mem_constants {t : Tree} {c : Constant} : c ∈ t.constants ↔ .constant c ∈ t.nodes := by
  unfold constants
  rw [List.mem_filterMap]
  constructor
  · rintro ⟨s, hs, hc⟩
    cases s <;> simp_all
  · intro h
    exact ⟨_, h, rfl⟩

variable {V : Vocabulary}

theorem IsOver.of_mem_variables {t : Tree} (h : t.IsOver V) {name : String}
    (hname : name ∈ t.variables) : V.hasVariable name := h _ (mem_variables.mp hname)

theorem IsOver.of_mem_constants {t : Tree} (h : t.IsOver V) {c : Constant}
    (hc : c ∈ t.constants) : V.hasConstant c := h _ (mem_constants.mp hc)

/-- The symbols of a tree are its vocabulary. -/
theorem isOver_iff {t : Tree} : t.IsOver V ↔ (∀ name ∈ t.variables, V.hasVariable name) ∧
    (∀ c ∈ t.constants, V.hasConstant c) ∧ ∀ f args, .call f args ∈ t.nodes → V.hasFunction f := by
  constructor
  · exact fun h => ⟨fun _ => h.of_mem_variables, fun _ => h.of_mem_constants, fun _ _ hf => h _ hf⟩
  · rintro ⟨hvariables, hconstants, hfunctions⟩ s hs
    match s with
    | .variable name => exact hvariables name (mem_variables.mpr hs)
    | .constant c => exact hconstants c (mem_constants.mpr hs)
    | .call f args => exact hfunctions f args hs
    | .number _ | .power _ | .term _ | .sum _ => trivial

theorem isOver_term_iff {t : Term} :
    (term t).IsOver V ↔ ∀ f ∈ t.top ++ t.bottom, (power f).IsOver V := by
  obtain ⟨m, d, top, bottom⟩ := t
  simp only [IsOver, nodes, Term.nodes, List.forall_mem_cons, List.forall_mem_append,
    Vocabulary.Admits, true_and, Factor.mem_nodesOfAll, forall_exists_index, and_imp]
  exact ⟨fun h => ⟨fun f hf s => h.1 s f hf, fun f hf s => h.2 s f hf⟩,
    fun h => ⟨fun s f hf => h.1 f hf s, fun s f hf => h.2 f hf s⟩⟩

theorem placeholder_isOver : (power .placeholder).IsOver V := by
  simp [IsOver, nodes, Factor.nodes, Factor.placeholder, one, Vocabulary.Admits]

theorem isOver_compositional (V : Vocabulary) : Compositional (IsOver V) where
  number v := by simp [IsOver, nodes, Vocabulary.Admits]
  power_iff {f} := by
    obtain ⟨base, exponent⟩ := f
    simp only [IsOver, nodes, Factor.nodes, List.forall_mem_cons, List.forall_mem_append,
      Vocabulary.Admits, true_and]
  of_term := isOver_term_iff.mp
  withMultiplier _ h := by
    have hfactors := isOver_term_iff.mp h
    exact isOver_term_iff.mpr hfactors
  term h := by
    obtain ⟨htop, hbottom⟩ := List.forall_mem_append.mp h
    exact isOver_term_iff.mpr (List.forall_mem_append.mpr
      ⟨Factor.forall_mem_side placeholder_isOver fun f hf => (htop f hf).2,
        Factor.forall_mem_side placeholder_isOver fun f hf => (hbottom f hf).2⟩)
  of_sum h t ht s hs := h s (List.mem_cons_of_mem _ (Term.mem_nodesOfAll.mpr ⟨t, ht, hs⟩))
  sum _ h := by
    refine List.forall_mem_cons.mpr ⟨trivial, fun s hs => ?_⟩
    obtain ⟨t, ht, hs⟩ := Term.mem_nodesOfAll.mp hs
    exact h t ht s hs
  of_call h a ha s hs := h s (List.mem_cons_of_mem _ (mem_nodesOfAll.mpr ⟨a, ha, hs⟩))
  call h _ hargs := by
    refine List.forall_mem_cons.mpr ⟨(List.forall_mem_cons.mp h).1, fun s hs => ?_⟩
    obtain ⟨a, ha, hs⟩ := mem_nodesOfAll.mp hs
    exact hargs a ha s hs

end Tree

/-- The symbols of the vocabulary are interpreted the same. -/
structure Interpretation.AgreesOn (V : Vocabulary) (I J : Interpretation) : Prop where
  ofVariable : ∀ name, V.hasVariable name → I.ofVariable name = J.ofVariable name
  ofConstant : ∀ c, V.hasConstant c → I.ofConstant c = J.ofConstant c
  ofFunction : ∀ f, V.hasFunction f → I.ofFunction f = J.ofFunction f

section
variable {I J : Interpretation} {V : Vocabulary}

mutual

/-- A tree means the same wherever its symbols are interpreted the same. -/
theorem Tree.meaning?_congr (h : I.AgreesOn V J) :
    (t : Tree) → t.IsOver V → t.meaning? I = t.meaning? J
  | .number _, _ => rfl
  | .constant c, ht => congrArg some (h.ofConstant c (ht _ (Tree.self_mem_nodes _)))
  | .variable name, ht => congrArg some (h.ofVariable name (ht _ (Tree.self_mem_nodes _)))
  | .power f, ht => f.meaning?_congr h ht
  | .term t, ht => t.meaning?_congr h ht
  | .sum ts, ht => Term.total?_congr h ts ((Tree.isOver_compositional V).of_sum ht)
  | .call f args, ht => by
    have hf := h.ofFunction f (ht _ (Tree.self_mem_nodes _))
    have hargs := Tree.meanings?_congr h args ((Tree.isOver_compositional V).of_call ht)
    simp only [Tree.meaning?, hf, hargs]

theorem Factor.meaning?_congr (h : I.AgreesOn V J) :
    (f : Factor) → (Tree.power f).IsOver V → f.meaning? I = f.meaning? J
  | ⟨base, exponent⟩, hf => by
    obtain ⟨hbase, hexponent⟩ := (Tree.isOver_compositional V).power_iff.mp hf
    simp only [Factor.meaning?, base.meaning?_congr h hbase, exponent.meaning?_congr h hexponent]

theorem Term.meaning?_congr (h : I.AgreesOn V J) :
    (t : Term) → (Tree.term t).IsOver V → t.meaning? I = t.meaning? J
  | ⟨m, d, top, bottom⟩, ht => by
    obtain ⟨htop, hbottom⟩ :=
      List.forall_mem_append.mp ((Tree.isOver_compositional V).of_term ht)
    simp only [Term.meaning?, Factor.product?_congr h top htop,
      Factor.product?_congr h bottom hbottom]

theorem Factor.product?_congr (h : I.AgreesOn V J) : (fs : List Factor) →
    (∀ f ∈ fs, (Tree.power f).IsOver V) → Factor.product? I fs = Factor.product? J fs
  | [], _ => rfl
  | f :: rest, hfs => by
    obtain ⟨hf, hrest⟩ := List.forall_mem_cons.mp hfs
    simp only [Factor.product?, f.meaning?_congr h hf, Factor.product?_congr h rest hrest]

theorem Term.total?_congr (h : I.AgreesOn V J) : (ts : List Term) →
    (∀ t ∈ ts, (Tree.term t).IsOver V) → Term.total? I ts = Term.total? J ts
  | [], _ => rfl
  | t :: rest, hts => by
    obtain ⟨ht, hrest⟩ := List.forall_mem_cons.mp hts
    simp only [Term.total?, t.meaning?_congr h ht, Term.total?_congr h rest hrest]

theorem Tree.meanings?_congr (h : I.AgreesOn V J) : (ts : List Tree) →
    (∀ t ∈ ts, t.IsOver V) → Tree.meanings? I ts = Tree.meanings? J ts
  | [], _ => rfl
  | t :: rest, hts => by
    obtain ⟨ht, hrest⟩ := List.forall_mem_cons.mp hts
    simp only [Tree.meanings?, t.meaning?_congr h ht, Tree.meanings?_congr h rest hrest]

end

end

namespace Tree

variable {V : Vocabulary}

theorem simplify_inherits {P : Tree → Prop} (hP : Compositional P) {t s : Tree}
    (h : t.simplify = .ok s) (ht : P t) : P s := by
  obtain ⟨-, -, enough, hrun⟩ := t.simplify_finishes
  exact simplifyWith_inherits hP ((hrun enough le_rfl).trans h) ht

theorem expand_inherits {P : Tree → Prop} (hP : Compositional P) {t s : Tree}
    (h : t.expand = .ok s) (ht : P t) : P s := by
  obtain ⟨-, -, enough, hrun⟩ := t.expand_finishes
  exact t.expandWith_inherits hP ((hrun enough le_rfl).trans h) ht

theorem simplify_isOver {t s : Tree} (h : t.simplify = .ok s) (ht : t.IsOver V) : s.IsOver V :=
  simplify_inherits (isOver_compositional V) h ht

theorem expand_isOver {t s : Tree} (h : t.expand = .ok s) (ht : t.IsOver V) : s.IsOver V :=
  expand_inherits (isOver_compositional V) h ht

/-- What takes the place of the variables of the tree is over the vocabulary, and so are the
constants that stay and the functions. -/
theorem evaluate_isOver {t e : Tree} {scope : Option Scope} (h : t.evaluate scope = .ok e)
    (hvariables : ∀ name ∈ t.variables,
      IsOver V ((scope.bind (·.get? name)).getD (.variable name)))
    (hconstants : scope.all (·.keepsConstants) = true → ∀ c ∈ t.constants, V.hasConstant c)
    (hfunctions : ∀ f args, .call f args ∈ t.nodes → V.hasFunction f) : e.IsOver V := by
  obtain ⟨-, enough, hrun⟩ := t.evaluate_finishes scope
  refine t.evaluateWith_inherits (isOver_compositional V) ((hrun enough le_rfl).trans h) ?_
  intro s hs
  match s with
  | .variable name => exact hvariables name (mem_variables.mpr hs)
  | .constant c =>
    intro hkeeps
    exact List.forall_mem_singleton.mpr (hconstants hkeeps c (mem_constants.mpr hs))
  | .call f args =>
    intro args' _ hargs'
    refine List.forall_mem_cons.mpr ⟨hfunctions f args hs, fun s' hs' => ?_⟩
    obtain ⟨a, ha, hs'⟩ := mem_nodesOfAll.mp hs'
    exact hargs' a ha s' hs'
  | .number _ | .power _ | .term _ | .sum _ => trivial

/-- Rewriting invents no symbol. The variables of a simplified or expanded tree are variables of the
tree. Those of an evaluated tree are variables of the tree without a value in the scope, or stand in
a tree to which the scope binds a variable of the tree. Constants that are not kept stand in such
trees only. -/
theorem rewriting_invents_no_symbol (t : Tree) :
    (∀ s, t.simplify = .ok s → ∀ name ∈ s.variables, name ∈ t.variables) ∧
    (∀ s, t.expand = .ok s → ∀ name ∈ s.variables, name ∈ t.variables) ∧
    ∀ (scope : Scope) (e : Tree), t.evaluate (some scope) = .ok e →
      (∀ name ∈ e.variables, name ∈ t.variables ∧ scope.get? name = none ∨
        ∃ x ∈ t.variables, ∃ u, scope.get? x = some u ∧ name ∈ u.variables) ∧
      (scope.keepsConstants = false → ∀ c ∈ e.constants,
        ∃ x ∈ t.variables, ∃ u, scope.get? x = some u ∧ c ∈ u.constants) := by
  have ht : t.IsOver ⟨(· ∈ t.variables), fun _ => True, fun _ => True⟩ :=
    isOver_iff.mpr ⟨fun _ => id, fun _ _ => trivial, fun _ _ _ => trivial⟩
  refine ⟨fun s hs name => ?_, fun s hs name => ?_, fun scope e he => ?_⟩
  · exact (simplify_isOver hs ht).of_mem_variables
  · exact (expand_isOver hs ht).of_mem_variables
  · let V : Vocabulary :=
      { hasVariable := fun name => name ∈ t.variables ∧ scope.get? name = none ∨
          ∃ x ∈ t.variables, ∃ u, scope.get? x = some u ∧ name ∈ u.variables
        hasConstant := fun c => scope.keepsConstants = true ∨
          ∃ x ∈ t.variables, ∃ u, scope.get? x = some u ∧ c ∈ u.constants
        hasFunction := fun _ => True }
    have heV : e.IsOver V := by
      refine evaluate_isOver he (fun name hname => ?_) (fun hkeeps c _ => .inl hkeeps)
        (fun _ _ _ => trivial)
      simp only [Option.bind_some]
      cases hu : scope.get? name with
      | none => exact List.forall_mem_singleton.mpr (.inl ⟨hname, hu⟩)
      | some u =>
        exact isOver_iff.mpr ⟨fun x hx => .inr ⟨name, hname, u, hu, hx⟩,
          fun c hc => .inr ⟨name, hname, u, hu, hc⟩, fun _ _ _ => trivial⟩
    refine ⟨fun name => heV.of_mem_variables, fun hkeeps c hc => ?_⟩
    exact (heV.of_mem_constants hc).resolve_left (by simp [hkeeps])

/-- `x ^ y` where `x` is `π ^ z`. -/
theorem rewriting_invents_no_symbol_of_power :
    ∃ e, (power ⟨.variable "x", .variable "y"⟩).evaluate (some
        { bindings := [("x", some (.power ⟨.constant .pi, .variable "z"⟩))]
          keepsConstants := false }) = .ok e ∧
      (∀ name ∈ e.variables, name = "y" ∨ name = "z") ∧ ∀ c ∈ e.constants, c = .pi := by
  let scope : Scope :=
    { bindings := [("x", some (.power ⟨.constant .pi, .variable "z"⟩))], keepsConstants := false }
  have hok : ((power ⟨.variable "x", .variable "y"⟩).evaluateWith initialSteps (some scope)).isOk =
      true := by decide +kernel
  obtain ⟨e, he⟩ := isOk_iff.mp hok
  have he : (power ⟨.variable "x", .variable "y"⟩).evaluate (some scope) = .ok e :=
    (withinSteps_of_ne_exhausted (by simp [he])).trans he
  have hx : scope.get? "x" = some (.power ⟨.constant .pi, .variable "z"⟩) := rfl
  have hy : scope.get? "y" = none := rfl
  have hnames : ∀ name ∈ (power ⟨.variable "x", .variable "y"⟩).variables,
      name = "x" ∨ name = "y" := by
    simp [Tree.variables, nodes, Factor.nodes]
  obtain ⟨hvariables, hconstants⟩ := (rewriting_invents_no_symbol _).2.2 scope e he
  refine ⟨e, he, fun name hname => ?_, fun c hc => ?_⟩
  · rcases hvariables name hname with ⟨hmem, hnone⟩ | ⟨x, hmem, u, hu, hin⟩
    · rcases hnames name hmem with rfl | rfl
      · simp [hx] at hnone
      · exact .inl rfl
    · rcases hnames x hmem with rfl | rfl
      · obtain rfl := Option.some.inj (hx.symm.trans hu)
        exact .inr (by simpa [Tree.variables, nodes, Factor.nodes] using hin)
      · simp [hy] at hu
  · obtain ⟨x, hmem, u, hu, hin⟩ := hconstants rfl c hc
    rcases hnames x hmem with rfl | rfl
    · obtain rfl := Option.some.inj (hx.symm.trans hu)
      simpa [constants, nodes, Factor.nodes] using hin
    · simp [hy] at hu

end Tree

end SymbolicAlgebra
