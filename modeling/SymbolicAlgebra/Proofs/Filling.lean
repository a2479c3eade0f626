import SymbolicAlgebra.Equation
import SymbolicAlgebra.Proofs.Bindings
import SymbolicAlgebra.Proofs.Symbols

/-!
# Filling a scope

A scope is filled from a tree with the variables that the tree mentions and the scope does not list.
They come after the bindings that are there, each once and without a value, in the order in which
they first occur in preorder. `Tree.Mentions` says where a variable may stand, whatever the order.
Scopes are those that `Scope.Change` leads to from an empty one, and none of them lists a variable
twice.
-/

namespace SymbolicAlgebra

/-- A variable stands somewhere in a tree. -/
inductive Tree.Mentions (name : String) : Tree → Prop where
  | self : Mentions name (.variable name)
  | base {b e : Tree} (h : Mentions name b) : Mentions name (.power ⟨b, e⟩)
  | exponent {b e : Tree} (h : Mentions name e) : Mentions name (.power ⟨b, e⟩)
  | top {m d : Value} {top bottom : List Factor} {f : Factor} (hf : f ∈ top)
      (h : Mentions name (.power f)) : Mentions name (.term ⟨m, d, top, bottom⟩)
  | bottom {m d : Value} {top bottom : List Factor} {f : Factor} (hf : f ∈ bottom)
      (h : Mentions name (.power f)) : Mentions name (.term ⟨m, d, top, bottom⟩)
  | summand {terms : List Term} {t : Term} (ht : t ∈ terms) (h : Mentions name (.term t)) :
      Mentions name (.sum terms)
  | argument {f : Function} {args : List Tree} {a : Tree} (ha : a ∈ args) (h : Mentions name a) :
      Mentions name (.call f args)

section
variable {name : String}

theorem Tree.Mentions.mem_nodes {t : Tree} (h : t.Mentions name) : .variable name ∈ t.nodes := by
  induction h with
  | self => exact List.mem_singleton_self _
  | base _ ih => exact List.mem_cons_of_mem _ (List.mem_append_left _ ih)
  | exponent _ ih => exact List.mem_cons_of_mem _ (List.mem_append_right _ ih)
  | top hf _ ih =>
    exact List.mem_cons_of_mem _ (List.mem_append_left _ (Factor.mem_nodesOfAll.mpr ⟨_, hf, ih⟩))
  | bottom hf _ ih =>
    exact List.mem_cons_of_mem _ (List.mem_append_right _ (Factor.mem_nodesOfAll.mpr ⟨_, hf, ih⟩))
  | summand ht _ ih => exact List.mem_cons_of_mem _ (Term.mem_nodesOfAll.mpr ⟨_, ht, ih⟩)
  | argument ha _ ih => exact List.mem_cons_of_mem _ (Tree.mem_nodesOfAll.mpr ⟨_, ha, ih⟩)

mutual

theorem Tree.mentions_of_mem : (t : Tree) → .variable name ∈ t.nodes → t.Mentions name
  | .number _, h | .constant _, h => by simp [Tree.nodes] at h
  | .variable x, h => by
    obtain rfl : name = x := by simpa [Tree.nodes] using h
    exact .self
  | .power f, h => f.mentions_of_mem h
  | .term t, h => t.mentions_of_mem h
  | .sum terms, h => by
    obtain ⟨t, ht, hmentions⟩ := Term.mentions_of_mem_all terms (by simpa [Tree.nodes] using h)
    exact .summand ht hmentions
  | .call _ args, h => by
    obtain ⟨a, ha, hmentions⟩ := Tree.mentions_of_mem_all args (by simpa [Tree.nodes] using h)
    exact .argument ha hmentions

theorem Factor.mentions_of_mem :
    (f : Factor) → .variable name ∈ f.nodes → (Tree.power f).Mentions name
  | ⟨base, exponent⟩, h => by
    rcases List.mem_append.mp (List.mem_of_ne_of_mem (by simp) h) with h | h
    · exact .base (base.mentions_of_mem h)
    · exact .exponent (exponent.mentions_of_mem h)

theorem Term.mentions_of_mem :
    (t : Term) → .variable name ∈ t.nodes → (Tree.term t).Mentions name
  | ⟨_, _, top, bottom⟩, h => by
    rcases List.mem_append.mp (List.mem_of_ne_of_mem (by simp) h) with h | h
    · obtain ⟨f, hf, hmentions⟩ := Factor.mentions_of_mem_all top h
      exact .top hf hmentions
    · obtain ⟨f, hf, hmentions⟩ := Factor.mentions_of_mem_all bottom h
      exact .bottom hf hmentions

theorem Factor.mentions_of_mem_all : (fs : List Factor) → .variable name ∈ Factor.nodesOfAll fs →
    ∃ f ∈ fs, (Tree.power f).Mentions name
  | [], h => by simp [Factor.nodesOfAll] at h
  | f :: rest, h => by
    rcases List.mem_append.mp h with h | h
    · exact ⟨f, List.mem_cons_self, f.mentions_of_mem h⟩
    · obtain ⟨g, hg, hmentions⟩ := Factor.mentions_of_mem_all rest h
      exact ⟨g, List.mem_cons_of_mem f hg, hmentions⟩

theorem Term.mentions_of_mem_all : (ts : List Term) → .variable name ∈ Term.nodesOfAll ts →
    ∃ t ∈ ts, (Tree.term t).Mentions name
  | [], h => by simp [Term.nodesOfAll] at h
  | t :: rest, h => by
    rcases List.mem_append.mp h with h | h
    · exact ⟨t, List.mem_cons_self, t.mentions_of_mem h⟩
    · obtain ⟨u, hu, hmentions⟩ := Term.mentions_of_mem_all rest h
      exact ⟨u, List.mem_cons_of_mem t hu, hmentions⟩

theorem Tree.mentions_of_mem_all : (ts : List Tree) → .variable name ∈ Tree.nodesOfAll ts →
    ∃ t ∈ ts, t.Mentions name
  | [], h => by simp [Tree.nodesOfAll] at h
  | t :: rest, h => by
    rcases List.mem_append.mp h with h | h
    · exact ⟨t, List.mem_cons_self, t.mentions_of_mem h⟩
    · obtain ⟨u, hu, hmentions⟩ := Tree.mentions_of_mem_all rest h
      exact ⟨u, List.mem_cons_of_mem t hu, hmentions⟩

end

theorem Tree.mem_variables_iff_mentions {t : Tree} : name ∈ t.variables ↔ t.Mentions name :=
  mem_variables.trans ⟨t.mentions_of_mem, Mentions.mem_nodes⟩

end

namespace Scope

variable {s : Scope}

inductive Change where
  | set (name : String) (value : Option Tree)
  | add (name : String)
  | remove (name : String)
  | clear
  | fill (t : Tree)

def Change.apply (s : Scope) : Change → Scope
  | set name value => s.set name value
  | add name => s.add name
  | remove name => s.remove name
  | clear => s.clear
  | fill t => s.fill t

/-- The scopes that changes lead to from an empty one. -/
def IsReached (s : Scope) : Prop :=
  ∃ (keepsConstants : Bool) (changes : List Change),
    changes.foldl Change.apply { keepsConstants } = s

theorem names_set (s : Scope) (name : String) (value : Option Tree) :
    (s.set name value).names = if name ∈ s.names then s.names else s.names ++ [name] := by
  rcases setBinding_cases name value s.bindings with
    ⟨earlier, old, later, hbindings, hset⟩ | ⟨hnew, hset⟩
  · have hname : name ∈ s.names := by simp [names, hbindings]
    rw [if_pos hname]
    change (setBinding name value s.bindings).map (·.1) = s.bindings.map (·.1)
    rw [hset, hbindings, List.map_append, List.map_append]
    rfl
  · rw [if_neg (show name ∉ s.names from hnew)]
    simp [names, set, hset]

/-- A variable that is listed at the end unless it is there is not listed twice. -/
theorem isDistinct_of_names {s' : Scope} {name : String} (hs : s.IsDistinct)
    (h : s'.names = if name ∈ s.names then s.names else s.names ++ [name]) : s'.IsDistinct := by
  rw [IsDistinct, h]
  split
  · exact hs
  · next hname =>
    refine List.nodup_append.mpr ⟨hs, by simp, ?_⟩
    rintro other hother _ hmem rfl
    exact hname (List.mem_singleton.mp hmem ▸ hother)

theorem isDistinct_add (hs : s.IsDistinct) (name : String) : (s.add name).IsDistinct :=
  isDistinct_of_names hs (by simpa [contains] using s.names_add name)

theorem isDistinct_fill (hs : s.IsDistinct) (t : Tree) : (s.fill t).IsDistinct := by
  unfold fill
  induction t.variables generalizing s with
  | nil => exact hs
  | cons name rest ih => exact ih (isDistinct_add hs name)

theorem isDistinct_apply (hs : s.IsDistinct) (change : Change) : (change.apply s).IsDistinct := by
  cases change with
  | set name value => exact isDistinct_of_names hs (s.names_set name value)
  | add name => exact isDistinct_add hs name
  | remove name =>
    change (s.remove name).names.Nodup
    rw [names_remove]
    exact hs.filter _
  | clear => exact List.nodup_nil
  | fill t => exact isDistinct_fill hs t

theorem IsReached.isDistinct (h : s.IsReached) : s.IsDistinct := by
  obtain ⟨keepsConstants, changes, rfl⟩ := h
  have hempty : ({ keepsConstants } : Scope).IsDistinct := List.nodup_nil
  generalize ({ keepsConstants } : Scope) = s at hempty ⊢
  induction changes generalizing s with
  | nil => exact hempty
  | cons change rest ih => exact ih _ (isDistinct_apply hempty change)

/-- Of some names, those that the scope does not list, each at its first occurrence. -/
def newNames (s : Scope) (names : List String) : List String :=
  (names.filter (· ∉ s.names)).eraseDups

/-- The scope with more variables listed, without values, after those it lists. -/
def listing (s : Scope) (names : List String) : Scope :=
  { s with bindings := s.bindings ++ names.map (·, none) }

theorem mem_newNames {names : List String} {name : String} :
    name ∈ s.newNames names ↔ name ∉ s.names ∧ name ∈ names := by
  simp [newNames, and_comm]

theorem names_listing (s : Scope) (names : List String) :
    (s.listing names).names = s.names ++ names := by
  simp [listing, Scope.names, Function.comp_def]

theorem add_of_mem {name : String} (h : name ∈ s.names) : s.add name = s := by
  simp [add, contains, h]

theorem add_of_not_mem {name : String} (h : name ∉ s.names) : s.add name = s.listing [name] := by
  simp [add, contains, h, listing]

theorem listing_listing (s : Scope) (names names' : List String) :
    (s.listing names).listing names' = s.listing (names ++ names') := by
  simp [listing]

theorem listing_nil (s : Scope) : s.listing [] = s := by
  simp [listing]

theorem newNames_cons (s : Scope) (name : String) (rest : List String) :
    s.newNames (name :: rest) =
      if name ∈ s.names then s.newNames rest
      else name :: (s.listing [name]).newNames rest := by
  split
  · next h => simp [newNames, h]
  · next h =>
    have hrest : (rest.filter (· ∉ s.names)).filter (fun other => !other == name) =
        rest.filter (· ∉ (s.listing [name]).names) := by
      rw [List.filter_filter]
      refine List.filter_congr fun other _ => ?_
      simp [names_listing, Bool.and_comm, beq_eq_decide]
    rw [newNames, List.filter_cons_of_pos (by simpa using h), List.eraseDups_cons, hrest, newNames]

theorem foldl_add (s : Scope) (names : List String) :
    names.foldl add s = s.listing (s.newNames names) := by
  induction names generalizing s with
  | nil => exact s.listing_nil.symm
  | cons name rest ih =>
    rw [List.foldl_cons, newNames_cons]
    split
    · next h => rw [add_of_mem h, ih]
    · next h => rw [add_of_not_mem h, ih, listing_listing, List.singleton_append]

theorem fill_eq_listing (s : Scope) (t : Tree) : s.fill t = s.listing (s.newNames t.variables) :=
  foldl_add s t.variables

theorem get?_listing (s : Scope) (names : List String) (name : String) :
    (s.listing names).get? name = s.get? name := by
  have hnew : ((names.map fun other => (other, (none : Option Tree))).lookup name).join = none := by
    induction names with
    | nil => rfl
    | cons other rest ih =>
      rw [List.map_cons, List.lookup_cons]
      split
      · rfl
      · exact ih
  unfold get? listing
  rw [List.lookup_append]
  cases s.bindings.lookup name with
  | none => exact hnew
  | some value => rfl

theorem newNames_of_subset {names : List String} (h : names ⊆ s.names) : s.newNames names = [] := by
  rw [List.eq_nil_iff_forall_not_mem]
  intro name hname
  obtain ⟨hnew, hmem⟩ := mem_newNames.mp hname
  exact hnew (h hmem)

theorem subset_names_fill (s : Scope) (t : Tree) : t.variables ⊆ (s.fill t).names := by
  intro name hname
  rw [fill_eq_listing, names_listing, List.mem_append, mem_newNames]
  by_cases h : name ∈ s.names
  · exact .inl h
  · exact .inr ⟨h, hname⟩

theorem fill_of_subset {t : Tree} (h : t.variables ⊆ s.names) : s.fill t = s := by
  rw [fill_eq_listing, newNames_of_subset h, listing_nil]

end Scope

namespace Equation

theorem fill_eq_listing (e : Equation) (s : Scope) :
    e.fill s = s.listing (s.newNames (e.left.variables ++ e.right.variables)) := by
  rw [← Scope.foldl_add, List.foldl_append]
  rfl

theorem fill_fill (e : Equation) (s : Scope) : e.fill (e.fill s) = e.fill s := by
  have hright : e.right.variables ⊆ (e.fill s).names := Scope.subset_names_fill _ _
  have hleft : e.left.variables ⊆ (e.fill s).names := by
    intro name hname
    have hlisted := s.subset_names_fill e.left hname
    rw [fill, Scope.fill_eq_listing (s.fill e.left), Scope.names_listing]
    exact List.mem_append_left _ hlisted
  rw [fill, Scope.fill_of_subset hleft, Scope.fill_of_subset hright]

end Equation

namespace Scope

/-- Filling a scope from a tree adds the variables that stand in the tree and are not listed, each
once and without a value, after the bindings that are there, in the order in which they first occur
in preorder. Nothing else changes, no variable is listed twice, and a second filling changes
nothing. From an equation a scope is filled as from its left side and then its right side. -/
theorem fill_adds_new_variables {s : Scope} (h : s.IsReached) (t : Tree) (e : Equation) :
    (s.fill t).bindings = s.bindings ++ (s.newNames t.variables).map (·, none) ∧
      (s.fill t).keepsConstants = s.keepsConstants ∧ (s.fill t).IsDistinct ∧
      (∀ name, name ∈ s.newNames t.variables ↔ name ∉ s.names ∧ t.Mentions name) ∧
      (∀ name, (s.fill t).get? name = s.get? name) ∧
      (s.fill t).fill t = s.fill t ∧
      e.fill s = (s.fill e.left).fill e.right ∧
      (e.fill s).bindings =
        s.bindings ++ (s.newNames (e.left.variables ++ e.right.variables)).map (·, none) ∧
      e.fill (e.fill s) = e.fill s := by
  refine ⟨?_, ?_, isDistinct_fill h.isDistinct t, fun name => ?_, fun name => ?_,
    fill_of_subset (s.subset_names_fill t), rfl, ?_, e.fill_fill s⟩
  · rw [fill_eq_listing, listing]
  · rw [fill_eq_listing, listing]
  · rw [mem_newNames, Tree.mem_variables_iff_mentions]
  · rw [fill_eq_listing, get?_listing]
  · rw [e.fill_eq_listing, listing]

/-- A scope with one variable bound and one listed, filled from a power with a call for its base and
a variable of its own in its exponent. -/
theorem fill_adds_new_variables_of_power :
    let s : Scope := { bindings := [("y", some .one), ("x", none)] }
    let t : Tree := .power
      ⟨.call .max [.variable "z", .variable "y"], .power ⟨.variable "w", .variable "z"⟩⟩
    s.IsReached ∧ (s.fill t).bindings = s.bindings ++ [("z", none), ("w", none)] ∧
      (s.fill t).fill t = s.fill t ∧ Equation.fill ⟨.variable "v", t⟩ s =
        (s.fill (.variable "v")).fill t := by
  intro s t
  have hreached : s.IsReached :=
    ⟨true, [.set "y" (some .one), .add "q", .add "x", .remove "q"], rfl⟩
  obtain ⟨hbindings, -, -, -, -, hagain, hequation, -⟩ :=
    fill_adds_new_variables hreached t ⟨.variable "v", t⟩
  have hnames : s.newNames t.variables = ["z", "w"] := by decide
  exact ⟨hreached, by rw [hbindings, hnames]; rfl, hagain, hequation⟩

end Scope

end SymbolicAlgebra
