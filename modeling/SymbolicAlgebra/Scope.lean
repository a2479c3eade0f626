import SymbolicAlgebra.Tree.Printer

/-!
# Scopes

A scope binds variables to trees, in the order in which the variables were added; a variable may
also be listed without a value. Filling a scope from a tree lists the variables of the tree that it
does not list yet and touches no binding.
-/

namespace SymbolicAlgebra

structure Scope where
  bindings : List (String × Option Tree) := []
  /-- Constants keep their symbols when a tree is evaluated. -/
  keepsConstants : Bool := true

namespace Scope

def names (s : Scope) : List String := s.bindings.map (·.1)

def size (s : Scope) : Nat := s.bindings.length

def contains (s : Scope) (name : String) : Bool := s.names.contains name

def get? (s : Scope) (name : String) : Option Tree := (s.bindings.lookup name).join

/-- A binding set at the place of its variable, or at the end. -/
def setBinding (name : String) (value : Option Tree) :
    List (String × Option Tree) → List (String × Option Tree)
  | [] => [(name, value)]
  | b :: rest => if b.1 = name then (name, value) :: rest else b :: setBinding name value rest

/-- Binds a variable, or lists it without a value. -/
def set (s : Scope) (name : String) (value : Option Tree) : Scope :=
  { s with bindings := setBinding name value s.bindings }

/-- Lists a variable without a value, unless it is listed. -/
def add (s : Scope) (name : String) : Scope :=
  if s.contains name then s else { s with bindings := s.bindings ++ [(name, none)] }

def remove (s : Scope) (name : String) : Scope :=
  { s with bindings := s.bindings.filter (·.1 ≠ name) }

def clear (s : Scope) : Scope := { s with bindings := [] }

def fill (s : Scope) (t : Tree) : Scope := t.variables.foldl add s

def bindingText (b : String × Option Tree) : Except Fault String := do
  match b.2 with
  | none => return b.1 ++ " = ?"
  | some t => return b.1 ++ " = " ++ (← t.text)

def text (s : Scope) : Except Fault String := do
  return "; ".intercalate (← s.bindings.mapM bindingText)

theorem names_add (s : Scope) (name : String) :
    (s.add name).names = if s.contains name then s.names else s.names ++ [name] := by
  unfold add
  split <;> simp [names]

theorem names_remove (s : Scope) (name : String) :
    (s.remove name).names = s.names.filter (· ≠ name) := by
  simp [remove, names, List.filter_map, Function.comp_def]

end Scope

end SymbolicAlgebra
