import SymbolicAlgebra.Formula.Reading
import SymbolicAlgebra.Settings.Json

/-!
# Settings

Settings are read from a JSON object in a file. A file that is missing, is not JSON or holds no
object leaves the default settings; members that are no settings are ignored with a warning. The
brackets must be an even number of code points, opening and closing ones alternately.

A setting is kept as the value that was given. Brackets that are an array or an object pass the
check on their number, but no text can be looked up in them: with them only formulas can be read in
which nothing is looked up, the empty one and a lone operator or separator other than a minus.
-/

namespace SymbolicAlgebra

open Text (CodePoint)

structure Settings where
  brackets : Json := .string Brackets.standard
  keepsConstants : Json := .boolean true
  logLevel : Json := .string (CodePoint.ofString "WARNING")

namespace Settings

inductive Warning where
  | notAnObject
  | unknownSetting (name : List CodePoint)
  deriving DecidableEq, Repr

/-- The wording of a warning about the file at a path. -/
def Warning.message (path : String) : Warning → String
  | notAnObject => "settings file " ++ path ++ " does not hold an object"
  | unknownSetting name => "unknown setting " ++ Text.quotedCodePoints name ++ " ignored"

def names : List (List CodePoint) :=
  ["brackets", "keep_constants", "log_level"].map CodePoint.ofString

/-- Settings pass if their brackets are even in number. -/
def check (s : Settings) : Except Fault Settings :=
  match s.brackets.length? with
  | none => throw .unmeasuredBrackets
  | some n => if n % 2 = 1 then throw .oddBrackets else pure s

def ofMembers (members : List (List CodePoint × Json)) : Settings :=
  let default : Settings := {}
  { brackets := (Json.find? "brackets" members).getD default.brackets
    keepsConstants := (Json.find? "keep_constants" members).getD default.keepsConstants
    logLevel := (Json.find? "log_level" members).getD default.logLevel }

/-- The warnings about members that are no settings, in the order of their wordings. -/
def unknownSettings (members : List (List CodePoint × Json)) : List Warning :=
  (((members.map (·.1)).filter (!names.contains ·)).map .unknownSetting).mergeSort
    fun a b => a.message "" ≤ b.message ""

def ofJson : Option Json → Except Fault (Settings × List Warning)
  | none => do return (← check {}, [])
  | some (.object members) => do return (← check (ofMembers members), unknownSettings members)
  | some _ => do return (← check {}, [.notAnObject])

/-- The settings in a text. One that is malformed is as good as none. -/
def ofText (text : String) : Except Fault (Settings × List Warning) :=
  match Json.read text with
  | .ok value => ofJson (some value)
  | .error .malformedJson => ofJson none
  | .error fault => throw fault

/-- The settings in the content of a file, or without a file. -/
def load (content : Option ByteArray) : Except Fault (Settings × List Warning) :=
  match content with
  | none => ofJson none
  | some bytes =>
    match String.fromUTF8? bytes with
    | some text => ofText text
    | none => throw .invalidEncoding

/-- A formula in which no bracket is looked up. -/
def looksUpNothing (text : List Char) : Bool :=
  match text with
  | [] => true
  | [c] => c != '-' && (c == ',' || (Operator.ofSymbol? (String.singleton c)).isSome)
  | _ => false

/-- Reads a formula with the brackets of the settings. -/
def parse (s : Settings) (text : String) : Except Fault Tree :=
  match s.brackets with
  | .string brackets => Formula.parse brackets text
  | _ =>
    if looksUpNothing (Formula.condensed text.toList) then Formula.parse [] text
    else throw .unsearchableBrackets

theorem check_default : check {} = .ok {} := rfl

end Settings

end SymbolicAlgebra
