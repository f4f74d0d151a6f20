import Scriptlet.CommandLine
import Scriptlet.Folder
/-!
The program: arguments, variables and files come in, and the text of the runs goes out.
-/

open Scriptlet

namespace Scriptlet.Main

def write (output : Output) : IO Unit := do
  (← IO.getStdout).putStr output.out
  (← IO.getStdout).flush
  (← IO.getStderr).putStr output.err

def openFailure : IO.Error → OpenFailure
  | .noFileOrDirectory .. => .missing
  | .inappropriateType _ _ details =>
    if Settings.toLower details = "not a directory" then .notDirectory else .directory
  | .invalidArgument _ _ details =>
    if Settings.toLower details = "name too long" then .nameTooLong else .other details
  | .permissionDenied .. => .denied
  | e => .other (toString e)

def look (path : String) : IO FileContent :=
  tryCatch (Except.ok <$> IO.FS.readBinFile (Folder.clean path)) fun e =>
    return .error (openFailure e)

def end? : CommandLine.Exit → IO UInt32
  | .success => pure 0
  | .status n => pure (.ofNat n)
  | .message s => do
    IO.eprintln s
    pure 1
  | .undecodable => do
    IO.eprintln "A file is not valid UTF-8"
    pure 1

def files (log traceback : Bool) (paths : List String) : IO UInt32 :=
  CommandLine.filesBy look write .standard log traceback paths .fresh >>= end?

partial def converse (p : Prompt) : IO UInt32 := do
  write { out := ">> " }
  let line ← (← IO.getStdin).getLine
  if line = "" then
    write Prompt.End.closed.farewell
    return .ofNat Prompt.End.closed.status
  let line := if line.toList.getLast? = some '\n' then String.ofList line.toList.dropLast else line
  let (output, p) := p.answer .standard line
  write output
  converse p

def settings : IO Settings.Environment := do
  let names := [Settings.levelVariable, Settings.tracebackVariable, Settings.historyVariable]
  let values ← names.mapM fun name => return (name, ← IO.getEnv name)
  return fun name => (values.find? (·.1 == name)).bind (·.2)

end Scriptlet.Main

def main (args : List String) : IO UInt32 := do
  let env ← Scriptlet.Main.settings
  match CommandLine.Request.ofArgs args with
  | .refused arg => Scriptlet.Main.end? (CommandLine.refusal arg)
  | .prompt level =>
    Scriptlet.Main.write Prompt.banner
    Scriptlet.Main.converse (CommandLine.promptFor level env)
  | .files level paths =>
    Scriptlet.Main.files (CommandLine.logging level env) (Settings.traceback env) paths
