import SymbolicAlgebra.Scope
import SymbolicAlgebra.Simplify
import SymbolicAlgebra.Value.Call

/-!
# Evaluation

`Tree.evaluate` puts the values of a scope in the place of variables and computes what is numeric.
`Tree.numericValue` is the number that a tree stands for without a scope: undefined if it depends on
a variable. `Tree.numericPart` is the numeric multiplier that a tree carries.
-/

namespace SymbolicAlgebra

mutual

def Tree.evaluateWith (n : Nat) (scope : Option Scope) : Tree → Except Fault Tree
  | .power f => f.evaluateWith n scope
  | .term t => t.evaluateWith n scope
  | .sum terms => do
    Tree.canonicalWith n (.sum (← Term.summed (← Term.evaluateAllWith n scope terms)))
  | .variable name =>
    match scope.bind (·.get? name) with
    | some t => pure t
    | none => pure (.variable name)
  | .constant c =>
    if scope.all (·.keepsConstants) then pure (.constant c) else pure (.number (.float c.value))
  | .call f args => do
    let args ← Tree.evaluateAllWith n scope args
    let values ← args.mapM Tree.plainValue?
    match values.mapM id with
    | some values => if f.isComputable then .number <$> f.apply values else return .call f args
    | none => return .call f args
  | .number v => pure (.number v)

def Factor.evaluateWith (n : Nat) (scope : Option Scope) : Factor → Except Fault Tree
  | ⟨base, exponent⟩ => do
    let base ← base.evaluateWith n scope
    let exponent ← exponent.evaluateWith n scope
    match ← base.plainValue?, ← exponent.plainValue? with
    | some b, some e => .number <$> b.pow e
    | _, _ => return .power ⟨base, exponent⟩

/-- A term with a zero divisor, before or after its factors are evaluated, is undefined. -/
def Term.evaluateWith (n : Nat) (scope : Option Scope) : Term → Except Fault Tree
  | ⟨multiplier, divisor, top, bottom⟩ => do
    if multiplier.isZero then return .zero
    else if divisor.isZero then return .undefined
    else
      let top ← Factor.evaluateAllWith n scope top
      let bottom ← Factor.evaluateAllWith n scope bottom
      let rebuilt ← Term.of multiplier divisor (top.map Tree.toFactor) (bottom.map Tree.toFactor)
      if rebuilt.divisor.isZero then return .undefined
      else
        match ← Tree.canonicalWith n (.term rebuilt) with
        | .term t => return if t.divisor.isZero then .undefined else .term t
        | t => return t

def Factor.evaluateAllWith (n : Nat) (scope : Option Scope) :
    List Factor → Except Fault (List Tree)
  | [] => pure []
  | f :: rest => do
    let t ← f.evaluateWith n scope
    return t :: (← Factor.evaluateAllWith n scope rest)

def Term.evaluateAllWith (n : Nat) (scope : Option Scope) : List Term → Except Fault (List Term)
  | [] => pure []
  | t :: rest => do
    let t ← (← t.evaluateWith n scope).toTerm
    return t :: (← Term.evaluateAllWith n scope rest)

def Tree.evaluateAllWith (n : Nat) (scope : Option Scope) : List Tree → Except Fault (List Tree)
  | [] => pure []
  | t :: rest => do
    let t ← t.evaluateWith n scope
    return t :: (← Tree.evaluateAllWith n scope rest)

end

/-- Evaluation under a scope, or without one; then variables stay, and so do constants. -/
def Tree.evaluate (t : Tree) (scope : Option Scope) : Except Fault Tree :=
  withinSteps fun n => t.evaluateWith n scope

mutual

/-- The number that a tree stands for, computed without simplifying it first. -/
def Tree.numericValue : Tree → Except Fault Value
  | .number v => pure v
  | .constant c => pure (.float c.value)
  | .variable _ => pure .undefined
  | .power f => f.numericValue
  | .term t => t.numericValue
  | .sum terms => Term.numericSum .zero terms
  | .call f args => do f.apply (← Tree.numericValues args)

def Factor.numericValue : Factor → Except Fault Value
  | ⟨base, exponent⟩ => do
    let b ← base.numericValue
    let e ← exponent.numericValue
    b.pow e

def Term.numericValue : Term → Except Fault Value
  | ⟨multiplier, divisor, top, bottom⟩ => do
    let n ← Factor.numericProduct multiplier top
    let d ← Factor.numericProduct divisor bottom
    n.div d

def Factor.numericProduct (v : Value) : List Factor → Except Fault Value
  | [] => pure v
  | f :: rest => do Factor.numericProduct (← v.mul (← f.numericValue)) rest

def Term.numericSum (v : Value) : List Term → Except Fault Value
  | [] => pure v
  | t :: rest => do Term.numericSum (← v.add (← t.numericValue)) rest

def Tree.numericValues : List Tree → Except Fault (List Value)
  | [] => pure []
  | t :: rest => do
    let v ← t.numericValue
    return v :: (← Tree.numericValues rest)

end

/-- A value times those of the numeric ones among some factors. -/
def Factor.numericPart (v : Value) (factors : List Factor) : Except Fault Value :=
  factors.foldlM
    (fun v f => do
      match ← f.value? with
      | some x => if x.isUndefined then return v else v.mul x
      | none => return v)
    v

/-- The numeric multiplier of a tree; undefined if it carries none. -/
def Tree.numericPart : Tree → Except Fault Value
  | .number v => pure v
  | .power f => do return (← f.value?).getD .undefined
  | .term t => do
    let n ← Factor.numericPart t.multiplier t.top
    let d ← Factor.numericPart t.divisor t.bottom
    if n.isZero || d.isZero then return .zero else n.div d
  | _ => pure .undefined

end SymbolicAlgebra
