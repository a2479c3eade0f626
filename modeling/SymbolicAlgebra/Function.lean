/-!
# Functions

The functions a formula may call. Ten of them compute a number from numbers; the remainder and the
factorial are written as operators and stay symbolic.
-/

namespace SymbolicAlgebra

inductive Function where
  | sin
  | cos
  | tan
  | sqrt
  | abs
  | ln
  | exp
  | log
  | min
  | max
  | remainder
  | factorial
  deriving DecidableEq, Repr

namespace Function

def all : List Function :=
  [sin, cos, tan, sqrt, abs, ln, exp, log, min, max, remainder, factorial]

def name : Function → String
  | sin => "sin"
  | cos => "cos"
  | tan => "tan"
  | sqrt => "sqrt"
  | abs => "abs"
  | ln => "ln"
  | exp => "exp"
  | log => "log"
  | min => "min"
  | max => "max"
  | remainder => "mod"
  | factorial => "factorial"

def arity : Function → Nat
  | log | min | max | remainder => 2
  | _ => 1

def ofName? (name : String) : Option Function := all.find? (·.name = name)

/-- Whether the function has a rule that computes its value from the values of its arguments. -/
def isComputable : Function → Bool
  | remainder | factorial => false
  | _ => true

theorem mem_all (f : Function) : f ∈ all := by cases f <;> decide

theorem ofName?_name (f : Function) : ofName? f.name = some f := by cases f <;> decide

theorem name_injective {f g : Function} (h : f.name = g.name) : f = g :=
  Option.some.inj (by rw [← ofName?_name f, ← ofName?_name g, h])

end Function

end SymbolicAlgebra
