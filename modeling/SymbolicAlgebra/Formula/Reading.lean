import SymbolicAlgebra.Formula.Postfix
import SymbolicAlgebra.Tree.Printer

/-!
# Reading formulas

`Formula.parse` reads a formula as a tree. `Formula.trace` also tells what was found at each stage
up to the tree or to the stage that failed.
-/

namespace SymbolicAlgebra.Formula

def parse (b : Brackets) (text : String) : Except Fault Tree := do
  Lexeme.build (← Lexeme.toPostfix (Lexeme.ofUnits b (units b text)))

/-- What reading a formula came to, and what was noted on the way. -/
structure Trace where
  notes : List String
  result : Except Fault Tree

def unitsNote (text : List Char) (units : List String) : String :=
  "split " ++ Text.quoted (String.ofList text) ++ " -> " ++ Text.quotedList units

def lexemesNote (stage : String) (lexemes : List Lexeme) : String :=
  stage ++ " " ++ Text.quotedList (lexemes.map Lexeme.text)

def treeNote (text treeText : String) : String :=
  "parsed " ++ Text.quoted text ++ " -> " ++ treeText

/-- Reads a formula and notes its units, its lexemes, their postfix order and the text of the tree.
A tree without a text counts as a failure to read. -/
def trace (b : Brackets) (text : String) : Trace :=
  let condensedText := condensed text.toList
  let us := units b text
  let lexemes := Lexeme.ofUnits b us
  let notes :=
    (if condensedText.isEmpty then [] else [unitsNote condensedText us]) ++
      [lexemesNote "classified" lexemes]
  match Lexeme.toPostfix lexemes with
  | .error fault => ⟨notes, .error fault⟩
  | .ok postfixed =>
    let notes := notes ++ [lexemesNote "postfix" postfixed]
    match Lexeme.build postfixed with
    | .error fault => ⟨notes, .error fault⟩
    | .ok t =>
      match t.text with
      | .error fault => ⟨notes, .error fault⟩
      | .ok treeText => ⟨notes ++ [treeNote text treeText], .ok t⟩

end SymbolicAlgebra.Formula
