import Scriptlet.Place
/-!
What can go wrong while a program runs, and how it is worded.
-/

namespace Scriptlet

/-- Where a tree has to have an identifier. -/
inductive IdentifierRole
  | target | declaration | parameter
deriving DecidableEq, Repr

inductive Fault
  | undefinedName (name : String)
  | callsTooDeep
  | nestingTooDeep
  | badOperand (postfixed : Bool) (kind : String)
  | notCallable
  | notFunction (name : String)
  | unsupported (kind : String)
  | unknownScope (id : Int)
  | globalScope
  | emptyName
  | noSlot (name : String)
  | notStatement (kind : String)
  | notExpression (kind : String)
  | unknownNode (label : String)
  | notIdentifier (role : IdentifierRole)
  | malformedParams
  | notOperator (text : String)
  | unknownArithmetic (op : String)
  | unknownComparison (op : String)
  /-- A node with too many or too few children. -/
  | malformedNode (label : String)
deriving DecidableEq, Repr

def IdentifierRole.text : IdentifierRole → String
  | target => "Assignment target"
  | declaration => "Declaration name"
  | parameter => "Parameter"

def Fault.message : Fault → String
  | undefinedName name => "ReferenceError: " ++ name ++ " is not defined"
  | callsTooDeep => "RangeError: Maximum call stack size exceeded"
  | nestingTooDeep => "RangeError: Maximum nesting depth exceeded"
  | badOperand postfixed kind =>
    "Invalid left-hand side in " ++ (if postfixed then "postfix " else "prefix ") ++ kind ++
      " operation"
  | notCallable => "Invalid call object"
  | notFunction name => name ++ " is not a function"
  | unsupported kind => "Node '" ++ kind ++ "' is not supported by this evaluator"
  | unknownScope id => "Unknown scope id " ++ toString id
  | globalScope => "Cannot pop the global scope"
  | emptyName => "Cannot store a value under an empty name"
  | noSlot name => "No live slot for '" ++ name ++ "'"
  | notStatement kind => "Expected a statement, got " ++ kind
  | notExpression kind => "Expected an expression, got " ++ kind
  | unknownNode label => "Unknown node: " ++ label
  | notIdentifier role => role.text ++ " must be an identifier"
  | malformedParams => "Malformed parameter list"
  | notOperator text => "Expected operator token, got " ++ text
  | unknownArithmetic op => "Unknown arithmetic operator " ++ op
  | unknownComparison op => "Unknown comparison operator " ++ op
  | malformedNode label => "Malformed node: " ++ label

/-- The message with the place it is about, if there is one. -/
def Fault.report (f : Fault) (place : Option Place) : String :=
  match place with
  | none => f.message
  | some p =>
    f.message ++ " (line " ++ toString p.line ++ ", col " ++ toString p.column ++ ")"

end Scriptlet
