import Scriptlet.Place
import Scriptlet.Tree
/-!
Phrases: the expressions, statements and blocks of a program as they are written, parentheses
included. Each part keeps the place of the token that it starts with, unless a part of its own
stands first. `nesting` counts how deeply phrases lie in one another; parentheses and statement
lists add nothing to it.
-/

namespace Scriptlet.Source

/-- A token that a tree keeps. -/
structure Name where
  text : String
  place : Place
deriving DecidableEq, Repr

inductive BinaryOp
  | or | and | equal | notEqual | below | above | atMost | atLeast | plus | minus | star | slash
deriving DecidableEq, Repr

/-- How tightly an operator binds. -/
def BinaryOp.level : BinaryOp → Nat
  | or => 1
  | and => 2
  | equal | notEqual => 3
  | below | above | atMost | atLeast => 4
  | plus | minus => 5
  | star | slash => 6

inductive UnaryOp
  | minus | plus | increment | decrement
deriving DecidableEq, Repr

inductive PostfixOp
  | increment | decrement
deriving DecidableEq, Repr

mutual

inductive Expr
  /-- A numeral, a word for a value, or a variable. -/
  | atom (kind : TokenKind) (name : Name)
  | paren (start : Place) (inner : Expr)
  | function (start : Place) (params : List Name) (body : Block)
  | construct (start : Place) (name : Name) (args : List Expr)
  | call (callee : Expr) (args : List Expr)
  | member (object : Expr) (name : Name)
  | postfixed (operand : Expr) (op : PostfixOp)
  | unary (start : Place) (op : UnaryOp) (operand : Expr)
  | binary (left : Expr) (op : BinaryOp) (place : Place) (right : Expr)

inductive Block
  | mk (start : Place) (body : List Stmt)

inductive Stmt
  | declare (start : Place) (name : Name) (value : Expr)
  | declareBare (start : Place) (name : Name)
  | assign (name : Name) (value : Expr)
  | ifOnly (start : Place) (test : Expr) (body : Block)
  /-- The other branch is a block or an `if` statement. -/
  | ifElse (start : Place) (test : Expr) (body : Block) (other : Stmt)
  | while (start : Place) (test : Expr) (body : Block)
  | return (start : Place) (value : Expr)
  | returnBare (start : Place)
  | function (start : Place) (name : Name) (params : List Name) (body : Block)
  | block (body : Block)
  | expr (value : Expr)
  | empty (start : Place)

end

/-- A program is the list of its statements. -/
abbrev Program := List Stmt

/-- Calls and members may follow such an expression directly. -/
def Expr.isMember : Expr → Bool
  | postfixed .. => false
  | unary .. => false
  | binary .. => false
  | _ => true

mutual

def Expr.nesting : Expr → Nat
  | .atom .. => 1
  | .paren _ inner => inner.nesting
  | .function _ _ body => body.nesting + 1
  | .construct _ _ args => nestingOfArgs args + 1
  | .call callee args => max callee.nesting (nestingOfArgs args) + 1
  | .member object _ => object.nesting + 1
  | .postfixed operand _ => operand.nesting + 1
  | .unary _ _ operand => operand.nesting + 1
  | .binary left _ _ right => max left.nesting right.nesting + 1

def nestingOfArgs : List Expr → Nat
  | [] => 0
  | e :: es => max e.nesting (nestingOfArgs es)

def Block.nesting : Block → Nat
  | .mk _ body => nestingOfBody body + 1

def nestingOfBody : List Stmt → Nat
  | [] => 0
  | s :: ss => max s.nesting (nestingOfBody ss)

def Stmt.nesting : Stmt → Nat
  | .declare _ _ value => value.nesting + 1
  | .declareBare .. => 1
  | .assign _ value => value.nesting + 1
  | .ifOnly _ test body => max test.nesting body.nesting + 1
  | .ifElse _ test body other => max (max test.nesting body.nesting) other.nesting + 1
  | .while _ test body => max test.nesting body.nesting + 1
  | .return _ value => value.nesting + 1
  | .returnBare _ => 1
  | .function _ _ _ body => body.nesting + 1
  | .block body => body.nesting
  | .expr value => value.nesting + 1
  | .empty _ => 1

end

def Program.nesting (p : Program) : Nat := nestingOfBody p

end Scriptlet.Source
