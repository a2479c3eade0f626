import SymbolicAlgebra.Value.Arithmetic

/-!
# Values of functions

Functions are computed on doubles, whatever the kind of their arguments. The remainder and the
factorial are not computed: their values are undefined.
-/

namespace SymbolicAlgebra.Function

/-- The lesser of two doubles, and an undefined one if there is one. Of equal ones it is the second,
which shows where they are zeros of either sign. -/
def lesser (x y : Float) : Float := if x < y || x.isNaN then x else y

/-- The greater of two doubles, and an undefined one if there is one. Of equal ones it is the
second. -/
def greater (x y : Float) : Float := if y < x || x.isNaN then x else y

/-- The value at doubles, given as many as the function takes. -/
def compute? : Function → List Float → Option Float
  | sin, [x] => some x.sin
  | cos, [x] => some x.cos
  | tan, [x] => some x.tan
  | sqrt, [x] => some x.sqrt
  | abs, [x] => some x.abs
  | ln, [x] => some x.log
  | exp, [x] => some x.exp
  | log, [x, b] => some (x.log / b.log)
  | min, [x, y] => some (lesser x y)
  | max, [x, y] => some (greater x y)
  | _, _ => none

def apply (f : Function) (args : List Value) : Except Fault Value :=
  if f.isComputable then do
    match f.compute? (← args.mapM Value.toFloat) with
    | some x => return .float x
    | none => throw (.argumentCount f args.length)
  else pure .undefined

theorem apply_of_not_isComputable {f : Function} (args : List Value)
    (h : f.isComputable = false) : f.apply args = .ok .undefined := by
  simp [apply, h, pure, Except.pure]

theorem isSome_compute? {f : Function} {xs : List Float} (h : f.isComputable = true)
    (hxs : xs.length = f.arity) : (f.compute? xs).isSome := by
  cases f <;> first
    | contradiction
    | (match xs, hxs with
       | [_], _ => rfl)
    | (match xs, hxs with
       | [_, _], _ => rfl)

end SymbolicAlgebra.Function
