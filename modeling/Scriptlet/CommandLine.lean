import Scriptlet.Prompt
import Scriptlet.ScriptFile
/-!
The command line: files to run one after the other, each on a store of its own, or none for the
prompt; `--debug` turns the debug log on.
-/

namespace Scriptlet.CommandLine

/-- What the arguments ask for; without a level the environment's holds. -/
inductive Request
  | refused (arg : String)
  | prompt (level : Option LogLevel)
  | files (level : Option LogLevel) (paths : List String)

def debugFlag : String := "--debug"

def isOption (arg : String) : Bool := arg.toList.head? = some '-'

/-- Reads the arguments; the first that is no path and no known option is refused. -/
def Request.ofArgs (args : List String) : Request :=
  match args.find? fun arg => isOption arg && arg != debugFlag with
  | some arg => .refused arg
  | none =>
    let level := if args.contains debugFlag then some .debug else none
    match args.filter (!isOption ·) with
    | [] => .prompt level
    | paths => .files level paths

/-- The log is written at the debug level only. -/
def logging (level : Option LogLevel) (env : Settings.Environment) : Bool :=
  level.getD (Settings.logLevel env) == .debug

/-- How the program ends. -/
inductive Exit
  | success
  | status (n : Nat)
  | message (s : String)
  /-- A file that is not UTF-8 ends the program without a report. -/
  | undecodable
deriving DecidableEq, Repr

def refusal (arg : String) : Exit := .message ("Unexpected argument: " ++ arg)

/-- What follows a file that broke off: the rest of the error text and the way the program ends. -/
def conclude (traceback : Bool) (path : String) : ScriptFile.Trouble → Output × Exit
  | .unopened f => ({}, .message ("Cannot open \"" ++ path ++ "\": " ++ f.reason))
  | .undecodable => ({}, .undecodable)
  | .failed f => (f.report traceback, .status 1)

/-- Runs one file on a new store: what it writes, the exit if it broke off, and the machine. -/
def runFile (limits : Limits) (log traceback : Bool) (path : String) (content : FileContent)
    (m : Machine) : Output × Option Exit × Machine :=
  let r := ScriptFile.run limits log path content m.renew
  match r.trouble with
  | none => (r.output, none, r.machine)
  | some t =>
    let (rest, exit) := conclude traceback path t
    (r.output ++ rest, some exit, r.machine)

/-- Runs files in order until one breaks off, where `read` opens them and `write` shows their
output. -/
def filesBy {M : Type → Type} [Monad M] (read : String → M FileContent) (write : Output → M Unit)
    (limits : Limits) (log traceback : Bool) : List String → Machine → M Exit
  | [], _ => return .success
  | path :: paths, m => do
    let (output, exit, m) := runFile limits log traceback path (← read path) m
    write output
    match exit with
    | some exit => return exit
    | none => filesBy read write limits log traceback paths m

/-- Runs files in order, with what `look` finds in them, and puts together what they write. -/
def runFiles (limits : Limits) (log traceback : Bool) (look : String → FileContent)
    (paths : List String) (m : Machine) : Output × Exit :=
  let files : StateM Output Exit :=
    filesBy (fun path => pure (look path)) (fun output => modify (· ++ output)) limits log
      traceback paths m
  (files.run {}).swap

/-- The prompt that the settings ask for. -/
def promptFor (level : Option LogLevel) (env : Settings.Environment) : Prompt :=
  { traceback := Settings.traceback env, log := logging level env }

/-- What the arguments lead to. -/
inductive Course
  | prompt (p : Prompt)
  | ended (output : Output) (exit : Exit)

/-- Follows the arguments, with files as `look` finds them. -/
def start (limits : Limits) (env : Settings.Environment) (look : String → FileContent)
    (args : List String) : Course :=
  match Request.ofArgs args with
  | .refused arg => .ended {} (refusal arg)
  | .prompt level => .prompt (promptFor level env)
  | .files level paths =>
    let (output, exit) :=
      runFiles limits (logging level env) (Settings.traceback env) look paths .fresh
    .ended output exit

end Scriptlet.CommandLine
