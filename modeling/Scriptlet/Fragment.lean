import Scriptlet.Evaluation
import Scriptlet.Text.Blank
/-!
Running a fragment of source text on a machine.
-/

namespace Scriptlet

/-- How deeply phrases and evaluation steps may nest, and how often a loop may go round. -/
structure Limits where
  depth : Nat
  rounds : Nat

/-- Deep enough for any program meant to be read, and shallow enough for the stack of the host; the
rounds do not run out in practice. -/
def Limits.standard : Limits := ⟨1000, Number.pow10 18⟩

/-- Why a fragment has no result. -/
inductive Failure
  | parse (e : Source.ParseError)
  | runtime (f : Fault) (place : Option Place)
  | unfinished

def Failure.message : Failure → String
  | parse e => e.message
  | runtime f place => f.report place
  | unfinished => "Evaluation did not finish"

/-- What an action comes to when nothing is around it. -/
def Stop.failure : Stop → Failure
  | fault f place => .runtime f place
  | tooDeep => .runtime .nestingTooDeep none
  | unfinished => .unfinished

def Eval.outcome {α : Type} (x : Eval α) (m : Machine) : Except Failure α × Machine :=
  match x m with
  | .ok a m => (.ok a, m)
  | .error stop m => (.error stop.failure, m)

/-- Runs a statement tree by itself. -/
def Machine.exec (limits : Limits) (t : Tree) (m : Machine) : Except Failure Completion × Machine :=
  ((evaluator limits.rounds limits.depth).stmt t).outcome m

/-- Evaluates an expression tree by itself. -/
def Machine.eval (limits : Limits) (t : Tree) (m : Machine) : Except Failure Datum × Machine :=
  ((evaluator limits.rounds limits.depth).expr t).outcome m

/-- Parses and runs a fragment. One whose phrases nest too deeply is not started. -/
def Machine.run (limits : Limits) (src : String) (m : Machine) :
    Except Failure Completion × Machine :=
  let m := m.record (.fragment src)
  match Source.readProgram src.toList with
  | .error e => (.error (.parse e), m.record (.rejected e))
  | .ok p =>
    if limits.depth < p.nesting then (.error (.runtime .nestingTooDeep none), m)
    else m.exec limits p.tree

/-- Trims a line and adds the semicolon that it lacks. -/
def complete (line : String) : String :=
  let s := Text.strip line
  if s = "" then s
  else match s.toList.getLast? with
    | some ';' => s
    | some '\x7d' => s
    | _ => s ++ ";"

end Scriptlet
