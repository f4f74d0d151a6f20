import Scriptlet.Fault
import Scriptlet.Value
/-!
The store: frames of named slots, and the scopes in which frames are opened. Reserving a scope
captures the innermost frame; every entry of the scope opens a new frame whose parent is the
captured one. A frame is named by its index and is never removed, since a scope may have captured
it; leaving a scope only takes its frame off the stack.
-/

namespace Scriptlet

/-- Slots in the order in which their names were first stored. -/
abbrev Slots := List (String × Datum)

namespace Slots

def get? (slots : Slots) (name : String) : Option Datum :=
  (slots.find? (·.1 == name)).map (·.2)

/-- Stores under a name, which keeps its place if it is there. -/
def put (name : String) (d : Datum) : Slots → Slots
  | [] => [(name, d)]
  | (n, old) :: rest => if n = name then (n, d) :: rest else (n, old) :: put name d rest

def putAll (slots new : Slots) : Slots := new.foldl (fun acc (n, d) => put n d acc) slots

end Slots

structure Frame where
  scope : Nat
  parent : Option Nat
  slots : Slots

structure Store where
  frames : Array Frame
  /-- The frame that each scope captured when it was reserved; the global scope captured none. -/
  captured : Array (Option Nat)
  /-- The innermost frame of the stack, and those below it. -/
  top : Nat
  below : List Nat

namespace Store

def fresh : Store := ⟨#[⟨0, none, []⟩], #[none], 0, []⟩

def depth (s : Store) : Nat := s.below.length + 1

def scopeCount (s : Store) : Nat := s.captured.size

/-- A frame and its ancestors, from the inside out. A parent is older than its child. -/
def chain (s : Store) (i : Nat) : List Frame :=
  match s.frames[i]? with
  | none => []
  | some f =>
    match f.parent with
    | none => [f]
    | some p => if p < i then f :: s.chain p else [f]
termination_by i

/-- The slot that a name means in the innermost frame. -/
def load? (s : Store) (name : String) : Option Datum :=
  (s.chain s.top).findSome? (·.slots.get? name)

/-- Stores in the innermost frame. -/
@[inline] def alloc (s : Store) (name : String) (d : Datum) : Except Fault Store :=
  if name = "" then .error .emptyName
  else
    .ok { s with
      frames := s.frames.modify s.top fun f => { f with slots := f.slots.put name d } }

/-- Reserves a scope under the next id. -/
@[inline] def reserve (s : Store) : Nat × Store :=
  (s.captured.size, { s with captured := s.captured.push (some s.top) })

/-- The frame captured by a scope, if there is such a scope. -/
def scope? (s : Store) : Int → Option (Option Nat)
  | .ofNat n => s.captured[n]?
  | .negSucc _ => none

/-- Enters a scope with a new frame. -/
@[inline] def push (s : Store) (id : Int) : Except Fault Store :=
  match s.scope? id with
  | none => .error (.unknownScope id)
  | some parent =>
    let top := s.frames.size
    .ok { s with
      frames := s.frames.push ⟨id.toNat, parent, []⟩
      top
      below := s.top :: s.below }

/-- Leaves the innermost scope. -/
@[inline] def pop (s : Store) : Except Fault Store :=
  match s.below with
  | [] => .error .globalScope
  | t :: ts => .ok { s with top := t, below := ts }

/-- The scope of the innermost frame. -/
def currentScope (s : Store) : Nat := (s.frames[s.top]?.map (·.scope)).getD 0

/-- What anonymous functions are stored under begins like this, which no identifier does. -/
def anonymousStem : String := "%anon"

def isHidden (name : String) : Bool := anonymousStem.toList.isPrefixOf name.toList

/-- All that is visible from the innermost frame, the outermost frame first. -/
def visible (s : Store) : Slots := (s.chain s.top).foldr (fun f acc => acc.putAll f.slots) []

/-- The visible slots that have a name of their own. -/
def bindings (s : Store) : Slots := s.visible.filter fun (name, _) => !isHidden name

end Store

end Scriptlet
