import SymbolicAlgebra.Equation
import SymbolicAlgebra.Settings.Basic

/-!
# Sessions

A session answers lines. A line is a command, which begins with a colon, or a formula or an
equation, on which the operation of the current mode is carried out. `Session.answer` gives the text
to print and the session after the line. A misread formula is answered with its message and leaves
the session as it was; any other fault ends the session. `Session.run` plays a whole session.
-/

namespace SymbolicAlgebra

inductive Mode where
  | evaluate
  | simplify
  | expand
  | reduce
  deriving DecidableEq, Repr

namespace Mode

def all : List Mode := [evaluate, simplify, expand, reduce]

def name : Mode → String
  | evaluate => "evaluate"
  | simplify => "simplify"
  | expand => "expand"
  | reduce => "reduce"

def ofName? (name : String) : Option Mode := all.find? (·.name = name)

end Mode

structure Session where
  settings : Settings
  /-- Every tree that is read is also written to the log. -/
  isTraced : Bool
  scope : Scope
  mode : Mode

namespace Session

/-- The log levels by name; what is read is logged at the second one. -/
def levels : List (String × Nat) :=
  [("TRACE", 5), ("DEBUG", 10), ("INFO", 20), ("SUCCESS", 25), ("WARNING", 30), ("ERROR", 40),
    ("CRITICAL", 50)]

def tracedLevel : Nat := 10

/-- The level that a setting names or gives as a number. -/
def level : Json → Except Fault Nat
  | .string name =>
    match levels.find? fun l => Text.CodePoint.ofString l.1 = name with
    | some (_, n) => pure n
    | none => throw .unknownLevel
  | .integer n => if 0 ≤ n then pure n.toNat else throw .unknownLevel
  | .boolean b => pure b.toNat
  | _ => throw .untypedLevel

def start (settings : Settings) : Except Fault Session := do
  let n ← level settings.logLevel
  return {
    settings
    isTraced := n ≤ tracedLevel
    scope := { keepsConstants := settings.keepsConstants.isTruthy }
    mode := .evaluate }

def banner : String := "minicas, :help for commands"

def help : String :=
  "  <expression>        run the current mode on an expression or equation\n" ++
  "  :let x = <expr>     bind a variable\n" ++
  "  :unset x            unbind a variable\n" ++
  "  :scope              show bindings\n" ++
  "  :mode <name>        one of evaluate, simplify, expand, reduce\n" ++
  "  :quit"

def promptText (s : Session) : String := s.mode.name ++ "> "

/-- Reads a formula; a traced one must have a text. -/
def read (s : Session) (text : String) : Except Fault Tree := do
  let t ← s.settings.parse text
  if s.isTraced then
    let _ ← t.text
  return t

def applyMode (s : Session) (t : Tree) : Except Fault Tree :=
  match s.mode with
  | .evaluate => t.evaluate s.scope
  | .simplify => t.simplify
  | .expand => t.expand
  | .reduce => t.reduce

def calculate (s : Session) (text : String) : Except Fault String := do
  if text.contains '=' then
    (← (← Equation.parseWith s.read text).mapM s.applyMode).text
  else (← s.applyMode (← s.read text)).text

def bind (s : Session) (name text : String) : Except Fault Session := do
  let value ← (← s.read text).evaluate s.scope
  return { s with scope := s.scope.set name (some value) }

inductive Reply where
  /-- Something to print, possibly nothing, and the session after it. -/
  | more (session : Session) (output : String)
  | quit
  | failed (fault : Fault)

inductive Command where
  | nothing
  | quit
  | help
  | scope
  | mode (name : String)
  | unset (name : String)
  | bind (name text : String)
  | calculate (text : String)
  deriving DecidableEq, Repr

/-- The rest of a line after a command word, which needs no blank after it. -/
def after? (word : String) (line : List Char) : Option (List Char) :=
  if word.toList.isPrefixOf line then some (line.drop word.length) else none

def Command.ofChars (line : List Char) : Command :=
  if line.isEmpty then nothing
  else if line = ":q".toList ∨ line = ":quit".toList then quit
  else if line = ":help".toList then help
  else if line = ":scope".toList then scope
  else
    match after? ":mode" line with
    | some rest => mode (String.ofList (Text.trimmed rest))
    | none =>
      match after? ":unset" line with
      | some rest => unset (String.ofList (Text.trimmed rest))
      | none =>
        match after? ":let" line with
        | some rest =>
          bind (String.ofList (Text.trimmed (rest.takeWhile (· ≠ '='))))
            (String.ofList (rest.dropWhile (· ≠ '=')).tail)
        | none => calculate (String.ofList line)

/-- The command on a line; blanks at its ends do not count. -/
def Command.ofLine (line : String) : Command := ofChars (Text.trimmed line.toList)

def printed (text : String) : String := text ++ "\n"

/-- The reply to a result, or to a fault: a misreading is answered with its message. -/
def reply (s : Session) (result : Except Fault (Session × String)) : Reply :=
  match result with
  | .ok (session, output) => .more session output
  | .error (.misread cause) => .more s (printed ("error: " ++ cause.message))
  | .error fault => .failed fault

def scopeText (s : Session) : Except Fault String :=
  if s.scope.size = 0 then pure "(empty)" else s.scope.text

def perform (s : Session) : Command → Reply
  | .nothing => .more s ""
  | .quit => .quit
  | .help => .more s (printed help)
  | .scope => s.reply do return (s, printed (← s.scopeText))
  | .mode name =>
    match Mode.ofName? name with
    | some mode => .more { s with mode } ""
    | none => .more s (printed ("unknown mode " ++ Text.quoted name))
  | .unset name => .more { s with scope := s.scope.remove name } ""
  | .bind name text => s.reply do return (← s.bind name text, "")
  | .calculate text => s.reply do return (s, printed (← s.calculate text))

def answer (s : Session) (line : String) : Reply := s.perform (Command.ofLine line)

/-- What a session prints, cut where it reads a line, and the fault that ended it, if one did. -/
structure Screen where
  parts : List String
  fault : Option Fault := none

/-- What is printed from a line on, given what is printed before the line is read. -/
def play (s : Session) (printedBefore : String) : List String → Screen
  | [] => ⟨[printedBefore ++ s.promptText, ""], none⟩
  | line :: rest =>
    let shown := printedBefore ++ s.promptText
    match s.answer line with
    | .quit => ⟨[shown, ""], none⟩
    | .failed fault => ⟨[shown, ""], some fault⟩
    | .more session output =>
      let screen := session.play output rest
      { screen with parts := shown :: screen.parts }

/-- A session with the content of its settings file and the lines that are typed. -/
def run (content : Option ByteArray) (lines : List String) : Screen :=
  match (do let (settings, _) ← Settings.load content; start settings) with
  | .ok s => s.play (printed banner) lines
  | .error fault => ⟨[""], some fault⟩

end Session

end SymbolicAlgebra
