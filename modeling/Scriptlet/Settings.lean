import Scriptlet.Text.Blank
/-!
Settings, read from environment variables.
-/

namespace Scriptlet

inductive LogLevel
  | unset | debug | info | warning | error | critical
deriving DecidableEq, Repr

namespace LogLevel

def number : LogLevel → Nat
  | unset => 0
  | debug => 10
  | info => 20
  | warning => 30
  | error => 40
  | critical => 50

/-- The level with a given name in capitals. -/
def ofName? : String → Option LogLevel
  | "NOTSET" => some unset
  | "DEBUG" => some debug
  | "INFO" => some info
  | "WARN" => some warning
  | "WARNING" => some warning
  | "ERROR" => some error
  | "FATAL" => some critical
  | "CRITICAL" => some critical
  | _ => none

end LogLevel

namespace Settings

def levelVariable : String := "TINYJS_LOG_LEVEL"

def tracebackVariable : String := "TINYJS_DEBUG_PY_TRACE"

def historyVariable : String := "TINYJS_HISTORY"

/-- An environment gives the values of the variables that are set. -/
abbrev Environment := String → Option String

def toLower (s : String) : String := s.map Char.toLower

/-- Capitals of the letters that have one in ASCII; beside the ASCII letters these are the dotless
i and the long s. -/
def capital (c : Char) : Char :=
  if c = '\u0131' then 'I' else if c = '\u017f' then 'S' else c.toUpper

def toUpper (s : String) : String := s.map capital

/-- The level named by the environment; an unknown name means warnings. -/
def logLevel (env : Environment) : LogLevel :=
  match env levelVariable with
  | none => .warning
  | some s => (LogLevel.ofName? (toUpper (Text.strip s))).getD .warning

/-- Whether tracebacks are announced after runtime errors. -/
def traceback (env : Environment) : Bool :=
  ["1", "true", "yes", "on"].contains (toLower (Text.strip ((env tracebackVariable).getD "")))

/-- Where the prompt keeps its history. -/
def history (env : Environment) : String :=
  match env historyVariable with
  | none => ".history"
  | some s => if s = "" then ".history" else s

end Settings

end Scriptlet
