import Scriptlet.Fragment
/-!
What the front ends write: output and error text, the lines of the debug log, and failures.
-/

namespace Scriptlet

/-- Text for the two output streams. -/
structure Output where
  out : String := ""
  err : String := ""
deriving DecidableEq, Repr

def Output.append (a b : Output) : Output := ⟨a.out ++ b.out, a.err ++ b.err⟩

instance : Append Output := ⟨Output.append⟩

namespace Event

/-- The part of the program that an event is logged for, and what is said of it. Requests that
failed are not logged, nor are loads and reservations. -/
def describe? : Event → Option (String × String)
  | alloc name d (some scope) =>
    some ("heap", "alloc " ++ name ++ " = " ++ d.value.text ++ " in scope " ++ toString scope)
  | push scope (some depth) =>
    some ("heap", "push scope " ++ toString scope ++ " (depth " ++ toString depth ++ ")")
  | pop retain (some (scope, depth)) =>
    some ("heap", "pop scope " ++ toString scope ++ " (retain=" ++
      (if retain then "True" else "False") ++ ", depth " ++ toString depth ++ ")")
  | call f args =>
    some ("eval.fn", "call " ++ f.text ++ " with " ++ toString args ++ " arg(s)")
  | fragment src => some ("runner", "run " ++ Text.quote src)
  | rejected e =>
    some ("parser", "parse failed: " ++ e.cause.message ++ " (line " ++ toString e.place.line ++
      ", col " ++ toString e.place.column ++ ")")
  | _ => none

def logLine? (e : Event) : Option String :=
  e.describe?.map fun (part, text) => "DEBUG tinyjs." ++ part ++ ": " ++ text ++ "\n"

end Event

/-- The debug log of some events. -/
def logText (events : List Event) : String := String.join (events.filterMap Event.logLine?)

/-- Empties the journal into the error text, or nowhere if the log is off. -/
def Machine.flush (log : Bool) (m : Machine) : Output × Machine :=
  let (events, m) := m.takeJournal
  ({ err := if log then logText events else "" }, m)

/-- The error text for a failure; a traceback is announced for runtime errors only. -/
def Failure.report (traceback : Bool) (f : Failure) : Output :=
  let heading := match f with
    | .runtime .. => if traceback then "\nPython traceback:\n" else ""
    | _ => ""
  { err := "Error: " ++ f.message ++ "\n" ++ heading }

def resultLine (d : Datum) : Output := { out := "=> " ++ d.text ++ "\n" }

end Scriptlet
