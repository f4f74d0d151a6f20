import Scriptlet.Source.Parse
import Scriptlet.Store
/-!
The machine on which programs run: a store, a count of the anonymous names given so far, and a
journal of what was asked of the store. An action either gives a result or stops, and leaves the
machine behind in both cases.
-/

namespace Scriptlet

/-- An entry of the journal. Requests are entered whether or not they succeed. -/
inductive Event
  /-- Storing a datum, and the scope it went into. -/
  | alloc (name : String) (d : Datum) (scope : Option Nat)
  | load (name : String)
  /-- Entering a scope, and the depth reached. -/
  | push (scope : Int) (depth : Option Nat)
  /-- Leaving a scope: which one, and the depth left. -/
  | pop (retain : Bool) (left : Option (Nat × Nat))
  | reserve (scope : Nat)
  | call (f : Closure) (args : Nat)
  | fragment (src : String)
  | rejected (e : Source.ParseError)

structure Machine where
  store : Store := .fresh
  anonymous : Nat := 0
  /-- The last entry first. -/
  journal : List Event := []

namespace Machine

def fresh : Machine := {}

@[inline] def record (m : Machine) (e : Event) : Machine := { m with journal := e :: m.journal }

/-- A machine with a new store; anonymous names go on. -/
def renew (m : Machine) : Machine := { m with store := .fresh }

/-- Takes the entries out of the journal, the first one first. -/
def takeJournal (m : Machine) : List Event × Machine :=
  (m.journal.reverse, { m with journal := [] })

end Machine

/-- Why an action stops. -/
inductive Stop
  | fault (f : Fault) (place : Option Place)
  /-- Evaluation steps are nested more deeply than is allowed. -/
  | tooDeep
  /-- A loop went round more often than it was given rounds. -/
  | unfinished

abbrev Eval := EStateM Stop Machine

namespace Eval

def fail {α : Type} (f : Fault) : Eval α := throw (.fault f none)

def record (e : Event) : Eval Unit := modify (·.record e)

def alloc (name : String) (d : Datum) : Eval Unit := fun m =>
  match m.store.alloc name d with
  | .ok store => .ok () { m.record (.alloc name d (some store.currentScope)) with store }
  | .error f => .error (.fault f none) (m.record (.alloc name d none))

/-- Stores under the next anonymous name. -/
def allocAnonymous (d : Datum) : Eval Unit := do
  let n ← modifyGet fun m => (m.anonymous, { m with anonymous := m.anonymous + 1 })
  alloc (Store.anonymousStem ++ toString n) d

def load? (name : String) : Eval (Option Datum) := do
  record (.load name)
  return (← get).store.load? name

/-- Loads a slot that has to be there. -/
def load (name : String) : Eval Datum := do
  match ← load? name with
  | some d => pure d
  | none => fail (.noSlot name)

def push (id : Int) : Eval Unit := fun m =>
  match m.store.push id with
  | .ok store => .ok () { m.record (.push id (some store.depth)) with store }
  | .error f => .error (.fault f none) (m.record (.push id none))

def pop (retain : Bool) : Eval Unit := fun m =>
  match m.store.pop with
  | .ok store =>
    .ok () { m.record (.pop retain (some (m.store.currentScope, store.depth))) with store }
  | .error f => .error (.fault f none) (m.record (.pop retain none))

def reserve : Eval Nat := fun m =>
  let (id, store) := m.store.reserve
  .ok id { m.record (.reserve id) with store }

/-- The result of an action or why it stopped, as a result. -/
def attempt {α : Type} (x : Eval α) : Eval (Except Stop α) := fun m =>
  match x m with
  | .ok a m => .ok (.ok a) m
  | .error e m => .ok (.error e) m

/-- Gives a place to a fault that has none. -/
def located {α : Type} (place : Option Place) (x : Eval α) : Eval α := fun m =>
  match x m with
  | .error (.fault f none) m => .error (.fault f place) m
  | r => r

end Eval

end Scriptlet
