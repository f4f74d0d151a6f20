import Scriptlet.Report
import Scriptlet.Settings
/-!
The prompt: it answers line after line on one machine. A line is a slash command or a fragment.
-/

namespace Scriptlet

structure Prompt where
  machine : Machine := .fresh
  /-- Announce tracebacks. -/
  traceback : Bool := false
  /-- Write the debug log. -/
  log : Bool := false

namespace Prompt

def banner : Output := { out := "tinyjs repl, Ctrl-D to exit, / for commands\n" }

/-- The slash commands and what they do. -/
def commands : List (String × String) :=
  [("/env", "List the bindings visible from the top level"),
   ("/py-traceback", "Toggle Python traceback on errors"),
   ("/reset", "Reset the REPL environment")]

/-- The commands that begin with what was typed, with the number of characters to replace. -/
def completions (typed : String) : List (String × Nat × String) :=
  if typed.toList.head? = some '/' then
    (commands.filter fun (name, _) => typed.toList.isPrefixOf name.toList).map fun (name, about) =>
      (name, typed.length, about)
  else []

def isInvisible (c : Char) : Bool :=
  c == '\u200b' || c == '\u200c' || c == '\u200d' || c == '\ufeff' || c == '\u00a0' || c == '\r'

/-- Drops invisible characters. -/
def normalize (s : String) : String := .ofList (s.toList.filter (!isInvisible ·))

def say (s : String) : Output := { out := s ++ "\n" }

def complain (s : String) : Output := { err := s ++ "\n" }

/-- Turns announcing tracebacks on or off, or over if the argument is empty. -/
def setTraceback (arg : String) (p : Prompt) : Output × Prompt :=
  let word := Settings.toLower arg
  let chosen :=
    if ["on", "1", "true", "yes"].contains word then some true
    else if ["off", "0", "false", "no"].contains word then some false
    else if arg = "" then some !p.traceback
    else none
  match chosen with
  | none => (complain "Usage: /py-traceback [on|off]", p)
  | some b => (say ("Python traceback: " ++ if b then "on" else "off"), { p with traceback := b })

def bindingLines (m : Machine) : Output :=
  { out := String.join (m.store.bindings.map fun (name, d) => name ++ " = " ++ d.text ++ "\n") }

/-- Obeys a slash command. -/
def obey (name arg : String) (p : Prompt) : Output × Prompt :=
  if name = "/py-traceback" then p.setTraceback arg
  else if name = "/reset" then (say "Environment reset.", { p with machine := p.machine.renew })
  else if name = "/env" then (bindingLines p.machine, p)
  else (complain ("Unknown command: " ++ name), p)

/-- Runs a line as a fragment. -/
def evaluate (limits : Limits) (line : String) (p : Prompt) : Output × Prompt :=
  let (result, m) := p.machine.run limits (complete line)
  let (logged, m) := m.flush p.log
  let shown := match result with
    | .ok c => resultLine c.datum
    | .error f => f.report p.traceback
  (logged ++ shown, { p with machine := m })

def isCommand (line : String) : Bool := (Text.strip line).toList.head? = some '/'

/-- What a line is answered with, and the prompt afterwards. -/
def answer (limits : Limits) (typed : String) (p : Prompt) : Output × Prompt :=
  let line := normalize typed
  if Text.strip line = "" then ({}, p)
  else if isCommand line then
    let (name, arg) := Text.cutWord (Text.strip line)
    p.obey name arg
  else p.evaluate limits line

/-- The answers to some lines, in order. -/
def answers (limits : Limits) : List String → Prompt → List Output
  | [], _ => []
  | line :: lines, p =>
    let (output, p) := p.answer limits line
    output :: answers limits lines p

/-- How the input of a prompt ends. -/
inductive End
  | closed | interrupted
deriving DecidableEq, Repr

def End.farewell : End → Output
  | closed => say ""
  | interrupted => say "KeyboardInterrupt"

/-- The exit status. -/
def End.status : End → Nat
  | closed => 0
  | interrupted => 1

end Prompt

end Scriptlet
