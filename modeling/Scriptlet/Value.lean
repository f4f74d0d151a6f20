import Scriptlet.Number.Display
import Scriptlet.Tree
/-!
Values and what travels with them. A function is a reference, told apart by the scope reserved for
it, and the closure that the reference stands for; a datum holds both.
-/

namespace Scriptlet

inductive Value
  | number (x : Float)
  | bool (b : Bool)
  | null
  | undefined
  | ref (tag : Int)
deriving DecidableEq

structure Closure where
  params : List String
  body : Tree
  name : Option String
  scope : Int

/-- A value with the closure that it stands for, if it is a function. -/
structure Datum where
  value : Value
  function : Option Closure := none

namespace Value

/-- False are `false`, zero, NaN, `null` and `undefined`. -/
def truth : Value → Bool
  | number x => !(x == 0 || x.isNaN)
  | bool b => b
  | null => false
  | undefined => false
  | ref _ => true

def toNumber : Value → Float
  | number x => x
  | bool b => if b then 1 else 0
  | null => 0
  | undefined => 0 / 0
  | ref _ => 0 / 0

def text : Value → String
  | number x => Number.toText x
  | bool b => if b then "true" else "false"
  | null => "null"
  | undefined => "undefined"
  | ref tag => "<heap #" ++ toString tag ++ ">"

end Value

/-- A missing name and an empty one read the same. -/
def Closure.text (f : Closure) : String :=
  let name := f.name.getD ""
  "[function " ++ (if name = "" then "anonymous" else name) ++ "]"

def Datum.undefined : Datum := ⟨.undefined, none⟩

/-- How a datum is shown: as its function if it is one. -/
def Datum.text (d : Datum) : String :=
  match d.function with
  | some f => f.text
  | none => d.value.text

end Scriptlet
