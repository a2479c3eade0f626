import SymbolicAlgebra.Scope

/-!
# Changes of a scope

`Scope.Gains` and `Scope.Loses` say what binding and unbinding one variable leaves of a scope: every
other binding, at its place among the others. A variable that is listed once is lost with its only
binding, so unbinding keeps to `Loses` in the scopes without repetition, which `IsDistinct` names
and which are closed under both changes.
-/

namespace SymbolicAlgebra.Scope

variable {s s' : Scope} {name : String}

/-- No variable is listed twice. -/
def IsDistinct (s : Scope) : Prop := s.names.Nodup

/-- One binding, of the given variable, is left out. -/
def Loses (s : Scope) (name : String) (s' : Scope) : Prop :=
  s'.keepsConstants = s.keepsConstants ∧
    ∃ earlier old later, s.bindings = earlier ++ (name, old) :: later ∧
      s'.bindings = earlier ++ later

/-- One variable has the given value: at its place if it was listed, and else at the end. -/
def Gains (s : Scope) (name : String) (value : Tree) (s' : Scope) : Prop :=
  s'.keepsConstants = s.keepsConstants ∧
    ((∃ earlier old later, s.bindings = earlier ++ (name, old) :: later ∧
        s'.bindings = earlier ++ (name, some value) :: later) ∨
      name ∉ s.names ∧ s'.bindings = s.bindings ++ [(name, some value)])

theorem setBinding_cases (name : String) (value : Option Tree) (bs : List (String × Option Tree)) :
    (∃ earlier old later, bs = earlier ++ (name, old) :: later ∧
        setBinding name value bs = earlier ++ (name, value) :: later) ∨
      name ∉ bs.map (·.1) ∧ setBinding name value bs = bs ++ [(name, value)] := by
  induction bs with
  | nil => exact .inr ⟨by simp, rfl⟩
  | cons b rest ih =>
    obtain ⟨other, old⟩ := b
    by_cases h : other = name
    · subst h
      exact .inl ⟨[], old, rest, rfl, by simp [setBinding]⟩
    · rcases ih with ⟨earlier, o, later, hrest, hset⟩ | ⟨hnew, hset⟩
      · exact .inl ⟨(other, old) :: earlier, o, later, by simp [hrest],
          by simp [setBinding, h, hset]⟩
      · exact .inr ⟨by simp [Ne.symm h, hnew], by simp [setBinding, h, hset]⟩

theorem gains_set (s : Scope) (name : String) (value : Tree) :
    s.Gains name value (s.set name (some value)) :=
  ⟨rfl, setBinding_cases name (some value) s.bindings⟩

theorem remove_loses (h : s.IsDistinct) (name : String) :
    s.remove name = s ∨ s.Loses name (s.remove name) := by
  by_cases hname : name ∈ s.names
  · obtain ⟨⟨other, old⟩, hmem, heq⟩ := List.mem_map.mp hname
    obtain rfl : other = name := heq
    obtain ⟨earlier, later, hsplit⟩ := List.append_of_mem hmem
    have hnodup : (earlier.map (·.1) ++ other :: later.map (·.1)).Nodup := by
      simpa [IsDistinct, names, hsplit] using h
    obtain ⟨-, hlater, hdisjoint⟩ := List.nodup_append.mp hnodup
    have hkept : ∀ b ∈ earlier ++ later, b.1 ≠ other := by
      intro b hb
      rcases List.mem_append.mp hb with hb | hb
      · exact hdisjoint _ (List.mem_map_of_mem hb) _ (by simp)
      · rintro rfl
        exact (List.nodup_cons.mp hlater).1 (List.mem_map_of_mem hb)
    refine .inr ⟨rfl, earlier, old, later, hsplit, ?_⟩
    calc (s.remove other).bindings
        = (earlier ++ later).filter (·.1 ≠ other) := by simp [remove, hsplit]
      _ = earlier ++ later := List.filter_eq_self.mpr fun b hb => by simpa using hkept b hb
  · left
    have hkept : s.bindings.filter (·.1 ≠ name) = s.bindings :=
      List.filter_eq_self.mpr fun b hb => by
        simpa using fun heq : b.1 = name => hname (heq ▸ List.mem_map_of_mem hb)
    rw [remove, hkept]

theorem Gains.isDistinct {value : Tree} (h : s.Gains name value s') (hs : s.IsDistinct) :
    s'.IsDistinct := by
  obtain ⟨-, ⟨earlier, old, later, hbindings, hbindings'⟩ | ⟨hnew, hbindings'⟩⟩ := h
  · simpa [IsDistinct, names, hbindings, hbindings'] using hs
  · rw [IsDistinct, names, hbindings', List.map_append]
    refine List.nodup_append.mpr ⟨hs, by simp, ?_⟩
    rintro other hother _ hmem rfl
    obtain rfl : other = name := List.mem_singleton.mp hmem
    exact hnew hother

theorem Loses.isDistinct (h : s.Loses name s') (hs : s.IsDistinct) : s'.IsDistinct := by
  obtain ⟨-, earlier, old, later, hbindings, hbindings'⟩ := h
  have hsublist : s'.names.Sublist s.names := by
    rw [names, names, hbindings, hbindings']
    exact ((List.Sublist.refl earlier).append (List.sublist_cons_self _ later)).map _
  exact hs.sublist hsublist

end SymbolicAlgebra.Scope
