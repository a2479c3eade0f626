/-!
# Constants

The named numbers of a formula. Each has a symbol, under which it is written, and a double as its
value; the circle number can also be read under its Latin name.
-/

namespace SymbolicAlgebra

inductive Constant where
  | pi
  | e
  deriving DecidableEq, Repr

namespace Constant

def symbol : Constant → String
  | pi => "π"
  | e => "e"

def value : Constant → Float
  | pi => Float.ofBits 0x400921FB54442D18
  | e => Float.ofBits 0x4005BF0A8B145769

def ofName? (name : String) : Option Constant :=
  if name = "pi" ∨ name = "π" then some pi else if name = "e" then some e else none

theorem ofName?_symbol (c : Constant) : ofName? c.symbol = some c := by cases c <;> decide

end Constant

end SymbolicAlgebra
