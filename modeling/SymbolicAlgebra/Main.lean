import SymbolicAlgebra.Session

/-!
# The command line

A session on standard input and output. The first argument names the settings file, which is
`minicas.json` otherwise.
-/

namespace SymbolicAlgebra

def readSettingsFile (path : String) : IO (Option ByteArray) := do
  try
    return some (← IO.FS.readBinFile path)
  catch
    | .noFileOrDirectory .. => return none
    | error => throw error

def complain (fault : Fault) : IO UInt32 := do
  (← IO.getStderr).putStrLn ("fault: " ++ fault.message?.getD "the session cannot go on")
  return 1

/-- Answers lines until the session ends or the input does. -/
partial def converse (s : Session) : IO UInt32 := do
  let output ← IO.getStdout
  output.putStr s.promptText
  output.flush
  let line ← (← IO.getStdin).getLine
  if line.isEmpty then return 0
  match s.answer line with
  | .quit => return 0
  | .failed fault => complain fault
  | .more s text =>
    output.putStr text
    converse s

def runSession (path : String) : IO UInt32 := do
  match Settings.load (← readSettingsFile path) with
  | .error fault => complain fault
  | .ok (settings, warnings) =>
    for warning in warnings do
      (← IO.getStderr).putStrLn (warning.message path)
    match Session.start settings with
    | .error fault => complain fault
    | .ok s =>
      (← IO.getStdout).putStr (Session.printed Session.banner)
      converse s

end SymbolicAlgebra

def main (args : List String) : IO UInt32 :=
  SymbolicAlgebra.runSession (args.headD "minicas.json")
