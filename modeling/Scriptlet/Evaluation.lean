import Scriptlet.Machine
import Scriptlet.Number.Spelling
import Scriptlet.Tree.Outline
/-!
Evaluation. An evaluator runs expressions and statements; one level of it is defined over the
evaluator for what is nested inside, and `evaluator rounds depth` has `depth` such levels, below
which every step stops as too deep. A loop goes round at most `rounds` times.
-/

namespace Scriptlet

/-- How a statement ended: its datum, and what it returns if it returns from its function. -/
structure Completion where
  datum : Datum
  returned : Option Datum := none

def Completion.undefined : Completion := ⟨.undefined, none⟩

structure Evaluator where
  expr : Tree → Eval Datum
  stmt : Tree → Eval Completion

open Eval

def arithmetic? : String → Option (Float → Float → Float)
  | "+" => some (· + ·)
  | "-" => some (· - ·)
  | "*" => some (· * ·)
  | "/" => some (· / ·)
  | _ => none

def comparison? : String → Option (Float → Float → Bool)
  | "==" => some (· == ·)
  | "!=" => some (· != ·)
  | "<" => some fun a b => a < b
  | "<=" => some fun a b => a ≤ b
  | ">" => some fun a b => b < a
  | ">=" => some fun a b => b ≤ a
  | _ => none

def identifier (role : IdentifierRole) (t : Tree) : Eval String :=
  match t.identifier? with
  | some name => pure name
  | none => fail (.notIdentifier role)

/-- The names in a parameter list; a missing list has none. -/
def paramNames : Tree → Eval (List String)
  | .missing => pure []
  | .token .. => fail .malformedParams
  | .node _ _ params => params.mapM (identifier .parameter)

def lookUp (name : String) : Eval Datum := do
  match ← load? name with
  | some d => pure d
  | none => fail (.undefinedName name)

def tokenValue (kind : TokenKind) (text : String) : Eval Datum :=
  match kind with
  | .number => pure ⟨.number (Number.ofText text.toList), none⟩
  | .trueWord => pure ⟨.bool true, none⟩
  | .falseWord => pure ⟨.bool false, none⟩
  | .nullWord => pure ⟨.null, none⟩
  | .undefinedWord => pure .undefined
  | .identifier => lookUp text
  | kind => fail (.unsupported (kind.name ++ ":" ++ text))

/-- A function literal reserves a scope and is stored under its name, or an anonymous one. -/
def makeFunction (name params body : Tree) : Eval Datum := do
  let scope ← reserve
  let f : Closure := ⟨← paramNames params, body, name.identifier?, scope⟩
  let d : Datum := ⟨.ref scope, some f⟩
  match f.name with
  | some name => if name = "" then allocAnonymous d else alloc name d
  | none => allocAnonymous d
  return d

/-- Changes a variable by `delta`; the old datum's value or the new one is the result. -/
def update (postfixed : Bool) (delta : Float) (target : Tree) : Eval Datum :=
  match target.identifier? with
  | none => fail (.badOperand postfixed target.kindName)
  | some name => do
    let old ← lookUp name
    let new : Datum := ⟨.number (old.value.toNumber + delta), none⟩
    alloc name new
    return if postfixed then ⟨old.value, none⟩ else new

/-- What to call. A value that is no function is looked up once more by its name. -/
def callee (node : Tree) (d : Datum) : Eval Closure :=
  match d.function, node.identifier? with
  | some f, _ => pure f
  | none, none => fail .notCallable
  | none, some name => do
    match (← lookUp name).function with
    | some f => pure f
    | none => fail (.notFunction name)

/-- Stores the arguments under the parameters' names; missing ones are undefined. -/
def bindParams : List String → List Datum → Eval Unit
  | [], _ => pure ()
  | p :: ps, [] => do
    alloc p .undefined
    bindParams ps []
  | p :: ps, a :: as => do
    alloc p a
    bindParams ps as

/-- Hands the first child of a node on. -/
def first {α : Type} (label : Label) (children : List Tree) (f : Tree → Eval α) : Eval α :=
  match children with
  | a :: _ => f a
  | [] => fail (.malformedNode label.name)

/-- Hands the only child of a node on. -/
def one {α : Type} (label : Label) (children : List Tree) (f : Tree → Eval α) : Eval α :=
  match children with
  | [a] => f a
  | _ => fail (.malformedNode label.name)

/-- Hands the two children of a node on. -/
def two {α : Type} (label : Label) (children : List Tree) (f : Tree → Tree → Eval α) : Eval α :=
  match children with
  | [a, b] => f a b
  | _ => fail (.malformedNode label.name)

/-- Hands the three children of a node on. -/
def three {α : Type} (label : Label) (children : List Tree) (f : Tree → Tree → Tree → Eval α) :
    Eval α :=
  match children with
  | [a, b, c] => f a b c
  | _ => fail (.malformedNode label.name)

/-- Runs a loop for at most the given number of rounds. -/
def repeatWhile (test : Eval Bool) (body : Eval Completion) : Nat → Eval Completion
  | 0 => throw .unfinished
  | rounds + 1 => do
    if ← test then
      let c ← body
      if c.returned.isSome then return ⟨.undefined, c.returned⟩
      repeatWhile test body rounds
    else return .undefined

namespace Evaluator

/-- Runs a function in a new frame of its scope, which is left however the body ends. -/
def call (inner : Evaluator) (f : Closure) (args : List Datum) : Eval Datum := do
  record (.call f args.length)
  push f.scope
  let ending ← attempt do
    bindParams f.params args
    inner.stmt f.body
  pop false
  match ending with
  | .ok c => return c.returned.getD .undefined
  | .error .tooDeep => fail .callsTooDeep
  | .error stop => throw stop

/-- An operation on two numbers; the operator is settled before its operands are evaluated. -/
def operation {α : Type} (inner : Evaluator) (find : String → Option (Float → Float → α))
    (unknown : String → Fault) (result : α → Value) (left op right : Tree) : Eval Datum :=
  match op with
  | .token _ text _ =>
    match find text with
    | none => fail (unknown text)
    | some f => do
      let a ← inner.expr left
      let b ← inner.expr right
      return ⟨result (f a.value.toNumber b.value.toNumber), none⟩
  | op => fail (.notOperator op.literal)

/-- The right operand is evaluated if the truth of the left one is `onward`; otherwise the left
datum is the result. -/
def shortCircuit (inner : Evaluator) (onward : Bool) (left right : Tree) : Eval Datum := do
  let d ← inner.expr left
  if d.value.truth = onward then inner.expr right else return d

def signed (inner : Evaluator) (sign : Float → Float) (operand : Tree) : Eval Datum := do
  let d ← inner.expr operand
  return ⟨.number (sign d.value.toNumber), none⟩

/-- The function comes first, then the arguments from the left, then the call. -/
def application (inner : Evaluator) (function args : Tree) : Eval Datum := do
  let d ← inner.expr function
  let values ← args.children.mapM inner.expr
  let f ← callee function d
  inner.call f values

/-- An expression, given how to evaluate what is nested in it. -/
def exprStep (inner : Evaluator) : Tree → Eval Datum
  | .missing => fail (.notExpression Tree.missing.kindName)
  | .token kind text _ => tokenValue kind text
  | .node label _ children =>
    match label with
    | .add => three label children (inner.operation arithmetic? .unknownArithmetic .number)
    | .mul => three label children (inner.operation arithmetic? .unknownArithmetic .number)
    | .compare => three label children (inner.operation comparison? .unknownComparison .bool)
    | .and => two label children (inner.shortCircuit true)
    | .or => two label children (inner.shortCircuit false)
    | .neg => first label children (inner.signed (-·))
    | .pos => first label children (inner.signed id)
    | .preIncrement => first label children (update false 1)
    | .preDecrement => first label children (update false (-1))
    | .postIncrement => first label children (update true 1)
    | .postDecrement => first label children (update true (-1))
    | .function => three label children makeFunction
    | .call => two label children inner.application
    | .member => fail (.unsupported label.name)
    | .construct => fail (.unsupported label.name)
    | _ => fail (.unknownNode label.name)

/-- Evaluates an expression and stores its datum under a name. -/
def store (inner : Evaluator) (role : IdentifierRole) (target value : Tree) : Eval Completion := do
  let name ← identifier role target
  let d ← inner.expr value
  alloc name d
  return ⟨d, none⟩

def bare (inner : Evaluator) (e : Tree) : Eval Completion := do
  let d ← inner.expr e
  return ⟨d, none⟩

def returning (inner : Evaluator) (e : Tree) : Eval Completion := do
  let d ← inner.expr e
  return ⟨d, some d⟩

def test (inner : Evaluator) (e : Tree) : Eval Bool := do
  let d ← inner.expr e
  return d.value.truth

/-- Runs one of two branches; the second may be missing. -/
def branch (inner : Evaluator) (condition body other : Tree) : Eval Completion := do
  if ← inner.test condition then inner.stmt body
  else match other with
    | .missing => return .undefined
    | other => inner.stmt other

/-- Runs a statement list from the left; a return ends it. -/
def sequence (inner : Evaluator) (first : Tree) : Tree → Eval Completion
  | .node .seq _ [next, rest] => do
    let c ← inner.stmt first
    if c.returned.isSome then return c else inner.sequence next rest
  | .node .seq _ _ => do
    let c ← inner.stmt first
    if c.returned.isSome then return c else fail (.malformedNode Label.seq.name)
  | last => do
    let c ← inner.stmt first
    if c.returned.isSome then return c else inner.stmt last

/-- A statement, given how to run what is nested in it. -/
def stmtStep (inner : Evaluator) (rounds : Nat) : Tree → Eval Completion
  | .node label _ children =>
    match label with
    | .decl => two label children (inner.store .declaration)
    | .assign => two label children (inner.store .target)
    | .bareExpr => first label children inner.bare
    | .empty => return .undefined
    | .conditional => three label children inner.branch
    | .loop => two label children fun condition body =>
      repeatWhile (inner.test condition) (inner.stmt body) rounds
    | .ret => one label children inner.returning
    | .seq => two label children inner.sequence
    | _ => fail (.unsupported label.name)
  | t => fail (.notStatement t.kindName)

/-- One more level around an evaluator. A fault is located at the innermost tree with a place. -/
def deepen (inner : Evaluator) (rounds : Nat) : Evaluator where
  expr t := located t.place? (inner.exprStep t)
  stmt t := located t.place? (inner.stmtStep rounds t)

/-- No level at all. -/
def exhausted : Evaluator := ⟨fun _ => throw .tooDeep, fun _ => throw .tooDeep⟩

end Evaluator

/-- Steps nest at most `depth` deep, and a loop goes round at most `rounds` times. -/
def evaluator (rounds : Nat) : Nat → Evaluator
  | 0 => .exhausted
  | depth + 1 => (evaluator rounds depth).deepen rounds

end Scriptlet
